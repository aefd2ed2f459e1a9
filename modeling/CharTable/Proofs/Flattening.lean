import CharTable.Proofs.Growth

/-!
Programs taken apart. A rule on a composite says what rules on its parts say, a range what points
say, and a rule that stands in a program already says nothing again. Rewriting a program by such
steps leaves every entry as it was, in the order in which it grew.
-/
namespace CharTable
open Relation (ReflTransGen)

def Rule.retag (tag : String) : Rule → Rule
  | .points _ bytes => .points tag bytes
  | .range _ low high => .range tag low high

inductive Flattens (ds : List Declaration) : List Rule → List Rule → Prop
  -- Rules on the parts of a composite, in declared order, for the rule on it.
  | parts {before after : List Rule} {rule : Rule} {parts : List String}
      (declared : ⟨rule.tag, .composite parts⟩ ∈ ds) :
      Flattens ds (before ++ rule :: after) (before ++ parts.map rule.retag ++ after)
  -- Points for a range, which list its bytes as characters or codes, in any order and number.
  | range {before after : List Rule} {tag : String} {low high : ByteSpec} {bytes : List ByteSpec}
      (lists : ∀ code, (∃ spec ∈ bytes, spec.value = code) ↔ low.value ≤ code ∧ code ≤ high.value) :
      Flattens ds (before ++ .range tag low high :: after) (before ++ .points tag bytes :: after)
  -- The same points in another order or number.
  | points {before after : List Rule} {tag : String} {bytes others : List ByteSpec}
      (same : ∀ spec, spec ∈ others ↔ spec ∈ bytes) :
      Flattens ds (before ++ .points tag bytes :: after) (before ++ .points tag others :: after)
  -- Nothing for a rule that stands earlier in the program.
  | repeated {before between after : List Rule} {rule : Rule} :
      Flattens ds (before ++ rule :: (between ++ rule :: after))
          (before ++ rule :: (between ++ after))

theorem TagSet.insertAll_repeated (s : TagSet) (atoms between rest : List AtomId) :
    s.insertAll (atoms ++ (between ++ (atoms ++ rest))) =
        s.insertAll (atoms ++ (between ++ rest)) := by
  have absorbed : ((s.insertAll atoms).insertAll between).insertAll atoms =
      (s.insertAll atoms).insertAll between := by
    apply insertAll_of_subset
    intro a member
    exact mem_insertAll.mpr (Or.inl (mem_insertAll.mpr (Or.inr member)))
  simp only [insertAll_append, absorbed]

namespace Rule

variable {m : Model} {ds : List Declaration}

theorem offer_of_target {rule : Rule} {target : TagId × List UInt8}
    (taken : rule.target m = .ok target) (b : UInt8) :
    rule.offer m b = if b ∈ target.2 then m.leaves target.1 else [] := by
  rw [offer, taken]

theorem target_retag {rule : Rule} {id other : TagId} {bytes : List UInt8} {tag : String}
    (taken : rule.target m = .ok (id, bytes)) (known : m.tagId tag = .ok other) :
    (rule.retag tag).target m = .ok (other, bytes) := by
  cases rule with
  | points old specs =>
    obtain ⟨_, resolved, _, ok, same⟩ := target_points_eq_ok_iff.mp taken
    cases same
    exact target_points_eq_ok_iff.mpr ⟨other, bytes, known, ok, rfl⟩
  | range old low high =>
    obtain ⟨_, lo, hi, _, lower, upper, ordered, same⟩ := target_range_eq_ok_iff.mp taken
    cases same
    exact target_range_eq_ok_iff.mpr ⟨other, lo, hi, known, lower, upper, ordered, rfl⟩

/-- Rules with one tag that name the same bytes offer the same. -/
theorem offer_congr {rule other : Rule} {first second : TagId × List UInt8}
    (taken : rule.target m = .ok first) (found : other.target m = .ok second)
    (tag : other.tag = rule.tag) (names : ∀ b, other.Names b ↔ rule.Names b) (b : UInt8) :
    other.offer m b = rule.offer m b := by
  obtain ⟨known, bytes⟩ := mem_target taken
  obtain ⟨again, others⟩ := mem_target found
  rw [tag] at again
  have same : second.1 = first.1 := Except.ok.inj (again.symm.trans known)
  have listed : b ∈ second.2 ↔ b ∈ first.2 := (others b).trans ((names b).trans (bytes b).symm)
  rw [offer_of_target taken, offer_of_target found, same, if_congr listed rfl rfl]

theorem offer_retag {rule : Rule} {id : TagId} {bytes : List UInt8} {parts : List String}
    {ids : List TagId} (taken : rule.target m = .ok (id, bytes))
    (each : List.Forall₂ (fun part id => m.index[part]? = some id) parts ids) (b : UInt8) :
    (parts.map rule.retag).flatMap (offer m b) = if b ∈ bytes then ids.flatMap m.leaves
        else [] := by
  induction each with
  | nil => simp
  | @cons part p parts ids known _ ih =>
    have target := target_retag taken (Model.tagId_eq_ok_iff.mpr known)
    rw [List.map_cons, List.flatMap_cons, ih, offer_of_target target]
    split <;> simp

/-- What the parts of a composite offer one after the other is what the composite offers. -/
theorem offer_parts (copies : m.Copies ds) {rule : Rule} {target : TagId × List UInt8}
    {parts : List String} (taken : rule.target m = .ok target)
    (declared : ⟨rule.tag, .composite parts⟩ ∈ ds) :
    (∀ part ∈ parts, ∃ other, (rule.retag part).target m = .ok other) ∧
      ∀ b, (parts.map rule.retag).flatMap (offer m b) = rule.offer m b := by
  obtain ⟨id, bytes⟩ := target
  have known := Model.tagId_eq_ok_iff.mp (mem_target taken).1
  obtain ⟨tag, found, resolves⟩ :=
    copies.tag_of_getElem? (copies.numbers.getElem?_of_mem declared known)
  cases resolves with
  | @composite _ _ ids _ each =>
    refine ⟨fun part listed => ?_, fun b => ?_⟩
    · obtain ⟨p, _, numbered⟩ := Traverse.mem_left each listed
      exact ⟨(p, bytes), target_retag taken (Model.tagId_eq_ok_iff.mpr numbered)⟩
    · rw [offer_retag taken each, offer_of_target taken, Model.leaves_composite found]

theorem names_points_iff {tag : String} {bytes : List ByteSpec} {b : UInt8} :
    (points tag bytes).Names b ↔ ∃ spec ∈ bytes, spec.value = b.toUInt32 := by
  simp only [Names, ByteSpec.resolve_eq_ok_iff, ← UInt32.toNat_inj, UInt8.toNat_toUInt32]

theorem names_range_iff {tag : String} {low high : ByteSpec}
    (inside : (range tag low high).InRange) {b : UInt8} :
    (range tag low high).Names b ↔ low.value ≤ b.toUInt32 ∧ b.toUInt32 ≤ high.value := by
  obtain ⟨ordered, small⟩ := inside
  obtain ⟨hi, upper⟩ := ByteSpec.exists_resolve_iff.mpr small
  obtain ⟨lo, lower⟩ := ByteSpec.exists_resolve_iff.mpr (Nat.lt_of_le_of_lt ordered small)
  have first := ByteSpec.resolve_eq_ok_iff.mp lower
  have last := ByteSpec.resolve_eq_ok_iff.mp upper
  rw [names_range_of_resolve lower upper]
  simp only [UInt8.le_iff_toNat_le, UInt32.le_iff_toNat_le, UInt8.toNat_toUInt32, first, last]

theorem points_of_range {tag : String} {low high : ByteSpec} {bytes : List ByteSpec}
    (lists : ∀ code, (∃ spec ∈ bytes, spec.value = code) ↔ low.value ≤ code ∧ code ≤ high.value)
    (inside : (range tag low high).InRange) :
    (points tag bytes).InRange ∧
      ∀ b, (points tag bytes).Names b ↔ (range tag low high).Names b := by
  refine ⟨fun spec listed => ?_, fun b => ?_⟩
  · obtain ⟨_, below⟩ := (lists spec.value).mp ⟨spec, listed, rfl⟩
    exact Nat.lt_of_le_of_lt below inside.2
  · rw [names_points_iff, names_range_iff inside, lists]

end Rule

namespace Table

variable {m : Model} {ds : List Declaration} {rules flat before after news : List Rule}
    {rule other : Rule} {t : Table}

/-- A sound program that offers every byte what amounts to the same builds the same table. -/
theorem ofRules_of_offers (built : ofRules m rules = .ok t)
    (sound : ∀ rule ∈ flat, ∃ target, rule.target m = .ok target)
    (same : ∀ b, TagSet.empty.insertAll (flat.flatMap (Rule.offer m b)) =
      TagSet.empty.insertAll (rules.flatMap (Rule.offer m b))) : ofRules m flat = .ok t := by
  obtain ⟨u, rebuilt⟩ := exists_ofRules_iff.mpr sound
  have equal : u = t := by
    apply eq_of_entries
    · rw [symbols_ofRules rebuilt, symbols_ofRules built]
    · intro b
      rw [entry_ofRules rebuilt, entry_ofRules built, same]
  rw [rebuilt, equal]

/-- A rule may give way to sound rules that offer the same atoms to every byte. -/
theorem ofRules_replace (built : ofRules m (before ++ rule :: after) = .ok t)
    (sound : ∀ other ∈ news, ∃ target, other.target m = .ok target)
    (offers : ∀ b, news.flatMap (Rule.offer m b) = rule.offer m b) :
    ofRules m (before ++ news ++ after) = .ok t := by
  have each := exists_ofRules_iff.mp ⟨t, built⟩
  apply ofRules_of_offers built
  · intro other listed
    simp only [List.mem_append] at listed
    rcases listed with (early | new) | late
    · exact each other (by simp [early])
    · exact sound other new
    · exact each other (by simp [late])
  · intro b
    simp only [List.flatMap_append, List.flatMap_cons, offers, List.append_assoc]

theorem ofRules_exchange (built : ofRules m (before ++ rule :: after) = .ok t)
    (tag : other.tag = rule.tag) (inside : other.InRange)
    (names : ∀ b, other.Names b ↔ rule.Names b) : ofRules m (before ++ other :: after) = .ok t := by
  obtain ⟨target, taken⟩ := exists_ofRules_iff.mp ⟨t, built⟩ rule (by simp)
  have known : ∃ id, m.tagId other.tag = .ok id :=
    tag ▸ (Rule.exists_target_iff.mp ⟨target, taken⟩).1
  obtain ⟨second, found⟩ := Rule.exists_target_iff.mpr ⟨known, inside⟩
  have replaced : ofRules m (before ++ [other] ++ after) = .ok t := by
    apply ofRules_replace built
    · intro new listed
      exact List.mem_singleton.mp listed ▸ ⟨second, found⟩
    · intro b
      rw [List.flatMap_singleton, Rule.offer_congr taken found tag names]
  rwa [List.append_assoc] at replaced

theorem inRange_of_built (built : ofRules m rules = .ok t) (listed : rule ∈ rules) : rule.InRange :=
  (Rule.exists_target_iff.mp (exists_ofRules_iff.mp ⟨t, built⟩ rule listed)).2

/-- One step leaves the table as it was. -/
theorem ofRules_of_flattens (copies : m.Copies ds) (step : Flattens ds rules flat)
    (built : ofRules m rules = .ok t) : ofRules m flat = .ok t := by
  cases step with
  | @parts before after rule parts declared =>
    obtain ⟨target, taken⟩ := exists_ofRules_iff.mp ⟨t, built⟩ rule (by simp)
    obtain ⟨sound, offers⟩ := Rule.offer_parts copies taken declared
    exact ofRules_replace built (by simpa using sound) offers
  | @range before after tag low high bytes lists =>
    have inside : (Rule.range tag low high).InRange := inRange_of_built built (by simp)
    obtain ⟨small, names⟩ := Rule.points_of_range lists inside
    exact ofRules_exchange built rfl small names
  | @points before after tag bytes others same =>
    have inside : (Rule.points tag bytes).InRange := inRange_of_built built (by simp)
    refine ofRules_exchange built rfl (fun spec listed => inside spec ((same spec).mp listed))
      fun b => ?_
    simp only [Rule.Names, same]
  | @repeated before between after rule =>
    have each := exists_ofRules_iff.mp ⟨t, built⟩
    apply ofRules_of_offers built
    · intro other listed
      apply each other
      simp only [List.mem_append, List.mem_cons] at listed ⊢
      tauto
    · intro b
      simp only [List.flatMap_append, List.flatMap_cons]
      rw [TagSet.insertAll_append, TagSet.insertAll_append .empty, TagSet.insertAll_repeated]

/-- However often and in whatever order a program is taken apart, it still succeeds, and every entry
of its table is the same list, in the same order. -/
theorem ofRules_flattened (accepted : Model.ofDeclarations ds = .ok m)
    (built : ofRules m rules = .ok t)
    (steps : ReflTransGen (Flattens ds) rules flat) : ofRules m flat = .ok t := by
  have copies := copies_of_ofDeclarations accepted
  induction steps with
  | refl => exact built
  | tail _ step ih => exact ofRules_of_flattens copies step ih

def alnumRules : List Rule :=
  [.range "ALNUM" (.code 254) (.code 255), .points "DIGIT" [.char '0'],
    .range "ALNUM" (.code 254) (.code 255)]

def alnumPoints : List Rule :=
  [.points "LETTER" [.code 254, .char '\xff'],
    .points "DIGIT" [.char '\xff', .code 254, .char '\xff'], .points "DIGIT" [.char '0']]

theorem ofRules_alnumPoints :
    ∃ m t, Model.ofDeclarations wordTags = .ok m ∧ ofRules m alnumRules = .ok t ∧
      ReflTransGen (Flattens wordTags) alnumRules alnumPoints ∧ ofRules m alnumPoints = .ok t := by
  obtain ⟨m, _, accepted, _⟩ := exists_word
  have copies := copies_of_ofDeclarations accepted
  obtain ⟨t, built⟩ :=
    (exists_ofRules_iff_declared copies).mpr (show ∀ rule ∈ alnumRules, _ by decide)
  have lists (code : UInt32) :
      (∃ spec ∈ [.char '\xff', .code 254, .char '\xff'], ByteSpec.value spec = code) ↔
      (254 : UInt32) ≤ code ∧ code ≤ 255 := by
    simp only [List.mem_cons, List.not_mem_nil, or_false, exists_eq_or_imp, exists_eq_left,
      ByteSpec.value, ← UInt32.toNat_inj, UInt32.le_iff_toNat_le]
    change 255 = code.toNat ∨ 254 = code.toNat ∨ 255 = code.toNat ↔
      254 ≤ code.toNat ∧ code.toNat ≤ 255
    omega
  have once :=
    @Flattens.repeated wordTags [] [.points "DIGIT" [.char '0']] []
      (.range "ALNUM" (.code 254) (.code 255))
  have points :=
    @Flattens.range wordTags [] [.points "DIGIT" [.char '0']] "ALNUM" (.code 254)
      (.code 255) _ lists
  have parts := @Flattens.parts wordTags [] [.points "DIGIT" [.char '0']]
    (.points "ALNUM" [.char '\xff', .code 254, .char '\xff']) ["LETTER", "DIGIT"] (by decide)
  have ordered := @Flattens.points wordTags []
    [.points "DIGIT" [.char '\xff', .code 254, .char '\xff'], .points "DIGIT" [.char '0']] "LETTER"
    [.char '\xff', .code 254, .char '\xff'] [.code 254, .char '\xff'] (by simp)
  have steps : ReflTransGen (Flattens wordTags) alnumRules alnumPoints :=
    (((ReflTransGen.single once).tail points).tail parts).tail ordered
  exact ⟨m, t, accepted, built, steps, ofRules_flattened accepted built steps⟩

end Table
end CharTable
