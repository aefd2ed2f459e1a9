import CharTable.Proofs.Faults

/-!
Where a program stops. What a rule comes to does not depend on the table, so a program stops at the
first rule that fails on a fresh table by itself, for the reason it has there; the rules behind it
play no part.
-/
namespace CharTable

inductive Fault.OfRule : Fault → Prop
  | unknownTag (name : String) : OfRule (.unknownTag name)
  | outOfRange (code : UInt32) : OfRule (.outOfRange code)
  | invalidRange (low high : UInt8) : OfRule (.invalidRange low high)

theorem Fault.OfRule.root_inRule {source : Fault} (plain : source.OfRule)
    (index : Nat) (text : String) : (inRule index text source).root = source := by
  cases plain <;> rfl

theorem Fault.raised_eq_some_iff {α : Type} {outcome : Except Fault α} {fault : Fault} :
    raised outcome = some fault ↔ outcome = .error fault := by
  cases outcome <;> simp [raised]

theorem Fault.raised_eq_none_iff {α : Type} {outcome : Except Fault α} :
    raised outcome = none ↔ ∃ result, outcome = .ok result := by
  cases outcome <;> simp [raised]

theorem Rule.ofRule_of_fault? {ds : List Declaration} {rule : Rule} {source : Fault}
    (faulty : rule.fault? ds = some source) : source.OfRule := by
  unfold fault? at faulty
  split at faulty
  · split at faulty
    · cases faulty
      exact .outOfRange _
    · cases faulty
    · split at faulty
      · cases faulty
        exact .invalidRange _ _
      · cases faulty
  · cases faulty
    exact .unknownTag _

namespace Table

variable {m : Model} {ds : List Declaration} {rules before : List Rule}
    {rule : Rule} {source : Fault}

/-- On every table a rule has the fault that it has under the declarations. -/
theorem raised_apply (copies : m.Copies ds) (t : Table) (rule : Rule) :
    Fault.raised (apply m t rule) = rule.fault? ds := by
  rw [apply_eq_map, ← Rule.raised_target copies]
  cases rule.target m <;> rfl

theorem apply_error_iff (copies : m.Copies ds) {t : Table} :
    apply m t rule = .error source ↔ rule.fault? ds = some source := by
  rw [← Fault.raised_eq_some_iff, raised_apply copies]

theorem exists_apply_iff (copies : m.Copies ds) {t : Table} :
    (∃ u, apply m t rule = .ok u) ↔ rule.fault? ds = none := by
  rw [← Fault.raised_eq_none_iff, raised_apply copies]

/-- Sound rules are applied one after the other, whatever follows them. -/
theorem applyFrom_append (copies : m.Copies ds) (index : Nat) (t : Table)
    (sound : ∀ earlier ∈ before, earlier.fault? ds = none) (after : List Rule) :
    ∃ u, applyFrom m index t (before ++ after) = applyFrom m (index + before.length) u after := by
  induction before generalizing index t with
  | nil => exact ⟨t, rfl⟩
  | cons earlier before ih =>
    obtain ⟨here, later⟩ := List.forall_mem_cons.mp sound
    obtain ⟨next, applied⟩ := (exists_apply_iff copies (t := t)).mpr here
    obtain ⟨u, runs⟩ := ih (index + 1) next later
    refine ⟨u, ?_⟩
    rw [List.cons_append, applyFrom, applied, List.length_cons,
      Nat.add_comm before.length, ← Nat.add_assoc]
    exact runs

theorem ofRules_of_sound (copies : m.Copies ds) (sound : ∀ rule ∈ rules, rule.fault? ds = none) :
    ∃ t, ofRules m rules = .ok t := by
  obtain ⟨t, runs⟩ := applyFrom_append copies 0 (empty m) sound []
  rw [List.append_nil] at runs
  exact ⟨t, runs⟩

/-- A program stops at the first rule that has a fault, whatever stands behind it. -/
theorem ofRules_of_first (copies : m.Copies ds)
    (sound : ∀ earlier ∈ before, earlier.fault? ds = none) (faulty : rule.fault? ds = some source)
    (after : List Rule) :
    ofRules m (before ++ rule :: after) = .error (.inRule before.length rule.text source) := by
  obtain ⟨t, runs⟩ := applyFrom_append copies 0 (empty m) sound (rule :: after)
  rw [ofRules, runs, applyFrom, (apply_error_iff copies).mpr faulty, Nat.zero_add]

/-- The rule at the position fails on a fresh table, and those before it do not. -/
def FirstFailure (m : Model) (rules : List Rule) (index : Nat) (rule : Rule)
    (source : Fault) : Prop :=
  ∃ before after, rules = before ++ rule :: after ∧ before.length = index ∧
    (∀ earlier ∈ before, ∃ t, apply m (empty m) earlier = .ok t) ∧
    apply m (empty m) rule = .error source

theorem ofRules_of_firstFailure (copies : m.Copies ds) {index : Nat}
    (first : FirstFailure m rules index rule source) (others : List Rule) :
    ofRules m (rules.take (index + 1) ++ others) = .error (.inRule index rule.text source) := by
  obtain ⟨before, after, rfl, rfl, sound, alone⟩ := first
  have kept : (before ++ rule :: after).take (before.length + 1) ++ others = before ++
      rule :: others := by
    simp [List.take_append, List.take_of_length_le (Nat.le_succ before.length)]
  rw [kept]
  exact ofRules_of_first copies (fun earlier listed =>
    (exists_apply_iff copies).mp (sound earlier listed)) ((apply_error_iff copies).mp alone) others

/-- Either every rule succeeds alone or there is a first one that does not. -/
theorem sound_or_firstFailure (m : Model) (rules : List Rule) :
    (∀ rule ∈ rules, ∃ t, apply m (empty m) rule = .ok t) ∨
      ∃ index rule source, FirstFailure m rules index rule source := by
  by_cases some : ∃ rule ∈ rules, ∃ source, apply m (empty m) rule = .error source
  · obtain ⟨before, rule, after, split, none, source, alone⟩ := Traverse.first_of_exists some
    refine Or.inr ⟨before.length, rule, source, before, after, split, rfl,
      fun earlier listed => ?_, alone⟩
    cases outcome : apply m (empty m) earlier with
    | ok t => exact ⟨t, rfl⟩
    | error fault => exact absurd ⟨fault, outcome⟩ (none earlier listed)
  · refine Or.inl fun rule listed => ?_
    cases outcome : apply m (empty m) rule with
    | ok t => exact ⟨t, rfl⟩
    | error fault => exact absurd ⟨rule, listed, fault, outcome⟩ some

/-- A program succeeds exactly when each of its rules succeeds alone on a fresh table. Otherwise it
stops at the first that does not, with its position and text and with the fault it has alone, and it
would stop so whatever stood behind. -/
theorem ofRules_outcome (accepted : Model.ofDeclarations ds = .ok m) (rules : List Rule) :
    ((∃ t, ofRules m rules = .ok t) ↔ ∀ rule ∈ rules, ∃ t, apply m (empty m) rule = .ok t) ∧
      (∀ fault, ofRules m rules = .error fault ↔
        ∃ index rule source, FirstFailure m rules index rule source ∧
          fault = .inRule index rule.text source) ∧
      ∀ index rule source, FirstFailure m rules index rule source →
        rule.fault? ds = some source ∧ source.OfRule ∧
          (Fault.inRule index rule.text source).root = source ∧
          ∀ others, ofRules m (rules.take (index + 1) ++ others) =
            .error (.inRule index rule.text source) := by
  have copies := copies_of_ofDeclarations accepted
  have sound (alone : ∀ rule ∈ rules, ∃ t, apply m (empty m) rule = .ok t) :
    ∃ t, ofRules m rules = .ok t :=
    ofRules_of_sound copies fun rule listed => (exists_apply_iff copies).mp (alone rule listed)
  have stops {index : Nat} {rule : Rule} {source : Fault}
      (first : FirstFailure m rules index rule source) :
      ofRules m rules = .error (.inRule index rule.text source) := by
    have stopped := ofRules_of_firstFailure copies first (rules.drop (index + 1))
    rwa [List.take_append_drop] at stopped
  refine ⟨⟨fun builds => ?_, sound⟩, fun fault => ⟨fun failed => ?_, ?_⟩,
    fun index rule source first => ?_⟩
  · rcases sound_or_firstFailure m rules with alone | ⟨_, _, _, first⟩
    · exact alone
    · obtain ⟨t, built⟩ := builds
      cases built.symm.trans (stops first)
  · rcases sound_or_firstFailure m rules with alone | ⟨index, rule, source, first⟩
    · obtain ⟨t, built⟩ := sound alone
      cases built.symm.trans failed
    · exact ⟨index, rule, source, first, Except.error.inj (failed.symm.trans (stops first))⟩
  · rintro ⟨index, rule, source, first, rfl⟩
    exact stops first
  · have ⟨_, _, _, _, _, alone⟩ := first
    have faulty := (apply_error_iff copies).mp alone
    have plain := Rule.ofRule_of_fault? faulty
    exact ⟨faulty, plain, plain.root_inRule index rule.text, ofRules_of_firstFailure copies first⟩

def faultyRules : List Rule :=
  [.range "DIGIT" (.char '0') (.char '9'), .range "LETTER" (.char 'z') (.char 'a'),
    .points "NOTHING" [.code 300], .points "WORD" [.code 95, .code 300]]

theorem ofRules_faultyRules : ∃ m, Model.ofDeclarations wordTags = .ok m ∧
    ofRules m faultyRules = .error (.inRule 1 "LETTER @ 'z'..='a'" (.invalidRange 122 97)) ∧
    (Fault.inRule 1 "LETTER @ 'z'..='a'" (.invalidRange 122 97)).root = .invalidRange 122 97 := by
  obtain ⟨m, _, accepted, _⟩ := exists_word
  have copies := copies_of_ofDeclarations accepted
  have first : FirstFailure m faultyRules 1 (.range "LETTER" (.char 'z') (.char 'a'))
      (.invalidRange 122 97) := by
    refine ⟨[.range "DIGIT" (.char '0') (.char '9')], _, rfl, rfl, ?_,
      (apply_error_iff copies).mpr rfl⟩
    intro earlier listed
    rw [List.mem_singleton.mp listed]
    exact (exists_apply_iff copies).mpr rfl
  have text : (Rule.range "LETTER" (.char 'z') (.char 'a')).text = "LETTER @ 'z'..='a'" := by decide
  obtain ⟨_, stops, plain⟩ := ofRules_outcome accepted faultyRules
  obtain ⟨_, _, root, _⟩ := plain _ _ _ first
  rw [text] at root
  exact ⟨m, accepted, (stops _).mpr ⟨1, _, _, first, by rw [text]⟩, root⟩

end Table
end CharTable
