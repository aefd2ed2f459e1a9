import CharTable.Proofs.Edits
import CharTable.Proofs.Expansion

/-!
How entries grow. An edit that succeeds puts the expansion of its tag behind what the entries of its
bytes hold, less what they hold already, and leaves every other entry alone; a program of rules adds
up what its rules offer, byte by byte.
-/
namespace CharTable

theorem TagSet.atoms_insertAll_leaves (s : TagSet) (m : Model) (id : TagId) :
    (s.insertAll (m.leaves id)).atoms = s.atoms ++ (m.expand id).filter (· ∉ s.atoms) := by
  rw [atoms_insertAll, Model.expand_eq_eraseDups]

/-- What a rule offers to a byte: the leaves of its tag where it names the byte, repetitions
included. -/
def Rule.offer (m : Model) (b : UInt8) (rule : Rule) : List AtomId :=
  match rule.target m with
  | .ok target => if b ∈ target.2 then m.leaves target.1 else []
  | .error _ => []

namespace Table

theorem eq_of_entries {t u : Table} (symbols : t.symbols = u.symbols)
    (same : ∀ b, t.entry b = u.entry b) : t = u := by
  have entries : t.entries = u.entries := by
    apply Vector.ext
    intro i inside
    have reached : (UInt8.ofNat i).toNat = i := UInt8.toNat_ofNat_of_lt' inside
    simpa only [entry, reached] using same (UInt8.ofNat i)
  cases t
  cases u
  cases entries
  cases symbols
  rfl

variable {m : Model} {ds : List Declaration} {rules : List Rule} {t u : Table}

theorem entry_insertOn_eq (m : Model) (id : TagId) (bytes : List UInt8) (t : Table) (b : UInt8) :
    (insertOn m id bytes t).entry b = (t.entry b).insertAll
        (if b ∈ bytes then m.leaves id else []) := by
  rw [entry_insertOn]
  split <;> rfl

/-- Rule after rule, an entry grows by what the rules offer to its byte. -/
theorem entry_applyFrom {index : Nat} (built : applyFrom m index t rules = .ok u) (b : UInt8) :
    u.entry b = (t.entry b).insertAll (rules.flatMap (Rule.offer m b)) := by
  induction rules generalizing index t with
  | nil =>
    cases built
    rfl
  | cons rule rules ih =>
    rw [applyFrom, apply_eq_map] at built
    rw [List.flatMap_cons, TagSet.insertAll_append, Rule.offer]
    cases taken : rule.target m with
    | error fault =>
      rw [taken] at built
      cases built
    | ok target =>
      rw [taken] at built
      rw [ih built, entry_insertOn_eq]

/-- An entry collects what the rules offer its byte, in their order and each atom once. -/
theorem entry_ofRules (built : ofRules m rules = .ok t) (b : UInt8) :
    t.entry b = TagSet.empty.insertAll (rules.flatMap (Rule.offer m b)) := by
  rw [entry_applyFrom built, entry_empty]

theorem exists_tryEdit_iff {e : Edit} :
    (∃ u, tryEdit m t e = .ok u) ↔ (∃ id, m.tagId e.toRule.tag = .ok id) ∧ e.toRule.InRange := by
  rw [tryEdit_eq, ← Rule.exists_target_iff]
  cases e.toRule.target m <;> simp [Except.map]

theorem symbols_tryEdit {e : Edit} (done : tryEdit m t e = .ok u) : u.symbols = t.symbols := by
  rw [tryEdit_eq] at done
  obtain ⟨target, _, rfl⟩ := map_eq_ok.mp done
  exact symbols_insertOn m target.1 target.2 t

/-- An edit that succeeds, carried out in place or not, appends to the entry of every byte that it
names those atoms of the expansion of its tag that the entry lacks, in the order of the expansion,
and does nothing to any other entry. -/
theorem edit_appends_expansion (accepted : Model.ofDeclarations ds = .ok m) {e : Edit}
    (done : tryEdit m t e = .ok u) :
    ∃ id tag, m.tagId e.toRule.tag = .ok id ∧ m.name? id = some e.toRule.tag ∧
      m.tag? id = some tag ∧ (Build.perform m e).on t = (.ok (), u) ∧ u.symbols = t.symbols ∧
      (∀ b, e.toRule.Names b →
        (u.entry b).atoms = (t.entry b).atoms ++ (m.expand id).filter (· ∉ (t.entry b).atoms)) ∧
      ∀ b, ¬ e.toRule.Names b → (u.entry b).atoms = (t.entry b).atoms := by
  have copies := copies_of_ofDeclarations accepted
  have symbols := symbols_tryEdit done
  rw [tryEdit_eq] at done
  obtain ⟨⟨id, bytes⟩, taken, rfl⟩ := map_eq_ok.mp done
  obtain ⟨known, named⟩ := Rule.mem_target taken
  have found := Model.tagId_eq_ok_iff.mp known
  obtain ⟨tag, there⟩ := copies.tag_of_lookup found
  refine ⟨id, tag, known, copies.name?_of_lookup found, there, ?_, symbols, fun b names => ?_,
    fun b other => ?_⟩
  · rw [Build.on_perform, taken]
    rfl
  · rw [entry_insertOn, if_pos ((named b).mpr names), TagSet.atoms_insertAll_leaves]
  · rw [entry_insertOn, if_neg (mt (named b).mp other)]

/-- Words over a byte that holds a digit already, up to the last byte value. -/
theorem edit_word_over_digit :
    ∃ m t u id, Model.ofDeclarations wordTags = .ok m ∧
      ofRules m [.points "DIGIT" [.code 255]] = .ok t ∧
      tryEdit m t (.range "WORD" (.code 250) (.code 255)) = .ok u ∧ m.tagId "WORD" = .ok id ∧
      (u.entry 255).atoms = (t.entry 255).atoms ++ (m.expand id).filter (· ∉ (t.entry 255).atoms) ∧
      (u.entry 249).atoms = (t.entry 249).atoms := by
  obtain ⟨m, _, accepted, _⟩ := exists_word
  have copies := copies_of_ofDeclarations accepted
  have sound : ∀ rule ∈ [Rule.points "DIGIT" [.code 255]], Declared wordTags rule.tag ∧
      rule.InRange := by
    decide
  obtain ⟨t, built⟩ := (exists_ofRules_iff_declared copies).mpr sound
  obtain ⟨u, done⟩ := (exists_tryEdit_iff (t := t) (e := .range "WORD" (.code 250) (.code 255))).mpr
    ⟨copies.exists_tagId_iff.mpr (by decide), by decide⟩
  obtain ⟨id, _, known, _, _, _, _, grows, stays⟩ := edit_appends_expansion accepted done
  refine ⟨m, t, u, id, accepted, built, done, known, grows 255 ⟨250, 255, by decide⟩, stays 249 ?_⟩
  rintro ⟨lo, hi, lower, _, above, _⟩
  cases lower
  exact absurd above (by decide)

end Table
end CharTable
