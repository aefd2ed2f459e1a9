import CharTable.Proofs.Meaning

/-!
Which fault a rule has. It is read off the declarations and the rule: the tag is looked up first,
then the specs are resolved in order, then the ends of a range are compared.
-/
namespace CharTable

def ByteSpec.isWide (spec : ByteSpec) : Bool := 255 < spec.value.toNat

namespace Rule

def specs : Rule → List ByteSpec
  | points _ bytes => bytes
  | range _ low high => [low, high]

/-- The fault that a rule has under the declarations: of its tag, else of its first wide spec, else
of a range that ends before it starts. -/
def fault? (ds : List Declaration) (rule : Rule) : Option Fault :=
  if Declared ds rule.tag then
    match rule.specs.find? ByteSpec.isWide, rule with
    | some spec, _ => some (.outOfRange spec.value)
    | none, points _ _ => none
    | none, range _ low high =>
      if high.value < low.value then some (.invalidRange low.value.toUInt8 high.value.toUInt8)
        else none
  else some (.unknownTag rule.tag)

end Rule

def Fault.raised {α : Type} : Except Fault α → Option Fault
  | .ok _ => none
  | .error fault => some fault

theorem Fault.raised_bind {α β : Type} (first : Except Fault α) (next : α → Except Fault β) :
    raised (first >>= next) = match first with
      | .ok a => raised (next a)
      | .error fault => some fault := by
  cases first <;> rfl

theorem ByteSpec.resolve_narrow {spec : ByteSpec} (narrow : spec.isWide = false) :
    spec.resolve = .ok spec.value.toUInt8 :=
  if_pos (Nat.lt_succ_of_le (by simpa [isWide] using narrow))

theorem ByteSpec.resolve_wide {spec : ByteSpec} (wide : spec.isWide = true) :
    spec.resolve = .error (.outOfRange spec.value) :=
  if_neg (Nat.not_lt_of_ge (of_decide_eq_true wide))

theorem ByteSpec.raised_mapM_resolve (bytes : List ByteSpec) :
    Fault.raised (bytes.mapM resolve) = (bytes.find? isWide).map fun spec =>
        .outOfRange spec.value := by
  induction bytes with
  | nil => rfl
  | cons spec bytes ih =>
    rw [List.mapM_cons, Fault.raised_bind]
    cases wide : spec.isWide with
    | true =>
      rw [resolve_wide wide, List.find?_cons_of_pos wide]
      rfl
    | false =>
      rw [resolve_narrow wide, List.find?_cons_of_neg (by simp [wide]), ← ih]
      dsimp only
      rw [Fault.raised_bind]
      cases bytes.mapM resolve <;> rfl

namespace Model.Copies

variable {m : Model} {ds : List Declaration}

theorem tagId_of_not_declared (copies : m.Copies ds) {name : String}
    (undeclared : ¬ Declared ds name) : m.tagId name = .error (.unknownTag name) := by
  have missing : m.index[name]? = none := copies.numbers.lookup_eq_none_iff.mpr undeclared
  rw [tagId, missing]

end Model.Copies

namespace Rule

variable {m : Model} {ds : List Declaration}

theorem raised_points {tag : String} {id : TagId} (known : m.tagId tag = .ok id)
    (bytes : List ByteSpec) :
    Fault.raised ((points tag bytes).target m) =
      (bytes.find? ByteSpec.isWide).map fun spec => .outOfRange spec.value := by
  rw [target, known, ← ByteSpec.raised_mapM_resolve]
  change Fault.raised (bytes.mapM ByteSpec.resolve >>= fun resolved => pure (id, resolved)) = _
  cases bytes.mapM ByteSpec.resolve <;> rfl

/-- The ends are looked at in the order in which they stand, and compared last. -/
theorem raised_range {tag : String} {id : TagId} (known : m.tagId tag = .ok id)
    (low high : ByteSpec) :
    Fault.raised ((range tag low high).target m) =
      if low.isWide then some (.outOfRange low.value)
      else if high.isWide then some (.outOfRange high.value)
      else if high.value < low.value then
        some (.invalidRange low.value.toUInt8 high.value.toUInt8)
      else none := by
  rw [target, known]
  cases wideLow : low.isWide with
  | true =>
    rw [ByteSpec.resolve_wide wideLow]
    rfl
  | false =>
    cases wideHigh : high.isWide with
    | true =>
      rw [ByteSpec.resolve_narrow wideLow, ByteSpec.resolve_wide wideHigh]
      rfl
    | false =>
      rw [ByteSpec.resolve_narrow wideLow, ByteSpec.resolve_narrow wideHigh]
      have kept : high.value.toUInt8 < low.value.toUInt8 ↔ high.value < low.value := by
        simp only [ByteSpec.isWide, decide_eq_false_iff_not] at wideLow wideHigh
        rw [UInt8.lt_iff_toNat_lt, UInt32.lt_iff_toNat_lt, UInt32.toNat_toUInt8,
          UInt32.toNat_toUInt8, Nat.mod_eq_of_lt (by omega), Nat.mod_eq_of_lt (by omega)]
      change Fault.raised (if high.value.toUInt8 < low.value.toUInt8 then _ else _) =
        if high.value < low.value then _ else _
      simp only [kept]
      split <;> rfl

theorem target_unknown {rule : Rule} {fault : Fault} (unknown : m.tagId rule.tag = .error fault) :
    rule.target m = .error fault := by
  cases rule with
  | points tag bytes =>
    change m.tagId tag = _ at unknown
    rw [target, unknown]
    rfl
  | range tag low high =>
    change m.tagId tag = _ at unknown
    rw [target, unknown]
    rfl

/-- The checks of a rule raise the fault that can be read off the rule and the declared names. -/
theorem raised_target (copies : m.Copies ds) (rule : Rule) :
    Fault.raised (rule.target m) = rule.fault? ds := by
  unfold fault?
  by_cases declared : Declared ds rule.tag
  · obtain ⟨id, known⟩ := copies.exists_tagId_iff.mpr declared
    rw [if_pos declared]
    cases rule with
    | points tag bytes =>
      rw [@raised_points m tag id known, specs]
      cases bytes.find? ByteSpec.isWide <;> rfl
    | range tag low high =>
      rw [@raised_range m tag id known, specs, List.find?_cons, List.find?_singleton]
      cases low.isWide <;> cases high.isWide <;> rfl
  · rw [if_neg declared, target_unknown (copies.tagId_of_not_declared declared)]
    rfl

end Rule
end CharTable
