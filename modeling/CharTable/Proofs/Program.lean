import CharTable.Proofs.Leaves
import CharTable.Proofs.Traverse

/-!
What a program of rules does. A rule has a target, a tag with the bytes it names, that depends on
the model alone; a program succeeds when all its rules have targets, and then each entry holds the
leaves of the targets that name its byte.
-/
namespace CharTable

def Rule.target (m : Model) : Rule → Except Fault (TagId × List UInt8)
  | .points tag bytes => do
    let id ← m.tagId tag
    let resolved ← bytes.mapM ByteSpec.resolve
    return (id, resolved)
  | .range tag low high => do
    let id ← m.tagId tag
    let lo ← low.resolve
    let hi ← high.resolve
    if hi < lo then .error (.invalidRange lo hi) else return (id, byteInterval lo hi)

def Rule.Names : Rule → UInt8 → Prop
  | .points _ bytes, b => ∃ spec ∈ bytes, spec.resolve = .ok b
  | .range _ low high, b => ∃ lo hi, low.resolve = .ok lo ∧ high.resolve = .ok hi ∧ lo ≤ b ∧ b ≤ hi

def Rule.InRange : Rule → Prop
  | .points _ bytes => ∀ spec ∈ bytes, spec.value.toNat < 256
  | .range _ low high => low.value ≤ high.value ∧ high.value.toNat < 256

instance : (rule : Rule) → Decidable rule.InRange
  | .points _ bytes => inferInstanceAs (Decidable (∀ spec ∈ bytes, spec.value.toNat < 256))
  | .range _ low high =>
    inferInstanceAs (Decidable (low.value ≤ high.value ∧ high.value.toNat < 256))

theorem ByteSpec.resolve_eq_ok_iff {spec : ByteSpec} {b : UInt8} :
    spec.resolve = .ok b ↔ spec.value.toNat = b.toNat := by
  unfold resolve
  split
  · rename_i small
    have kept : spec.value.toUInt8.toNat = spec.value.toNat := by
      rw [UInt32.toNat_toUInt8]
      exact Nat.mod_eq_of_lt small
    rw [Except.ok.injEq, ← UInt8.toNat_inj, kept]
  · rename_i large
    have below : b.toNat < 256 := b.toNat_lt
    constructor
    · intro same
      cases same
    · intro same
      omega

theorem ByteSpec.exists_resolve_iff {spec : ByteSpec} :
    (∃ b, spec.resolve = .ok b) ↔ spec.value.toNat < 256 := by
  constructor
  · intro resolves
    obtain ⟨b, resolved⟩ := resolves
    rw [resolve_eq_ok_iff.mp resolved]
    exact b.toNat_lt
  · intro small
    exact ⟨_, if_pos small⟩

theorem Rule.names_range_of_resolve {tag : String} {low high : ByteSpec} {lo hi b : UInt8}
    (lower : low.resolve = .ok lo) (upper : high.resolve = .ok hi) :
    (range tag low high).Names b ↔ lo ≤ b ∧ b ≤ hi := by
  simp only [Names, lower, upper, Except.ok.injEq, exists_and_left, exists_eq_left']

theorem mem_byteInterval {low high b : UInt8} : b ∈ byteInterval low high ↔ low ≤ b ∧ b ≤ high := by
  simp only [byteInterval, List.mem_map, List.mem_range'_1, UInt8.le_iff_toNat_le]
  constructor
  · intro listed
    obtain ⟨n, inside, rfl⟩ := listed
    have small : high.toNat < 256 := high.toNat_lt
    rw [UInt8.toNat_ofNat_of_lt' (show n < 256 by omega)]
    omega
  · intro between
    obtain ⟨above, below⟩ := between
    exact ⟨b.toNat, by omega, by simp⟩

/-- The bytes that a rule names, listed. -/
def Rule.named : Rule → List UInt8
  | .points _ bytes => bytes.filterMap fun spec => spec.resolve.toOption
  | .range _ low high =>
    match low.resolve, high.resolve with
    | .ok lo, .ok hi => byteInterval lo hi
    | _, _ => []

theorem Rule.mem_named {rule : Rule} {b : UInt8} : b ∈ rule.named ↔ rule.Names b := by
  cases rule with
  | points tag bytes =>
    have resolved (spec : ByteSpec) : spec.resolve.toOption = some b ↔ spec.resolve = .ok b := by
      cases spec.resolve <;> simp [Except.toOption]
    simp only [named, Names, List.mem_filterMap, resolved]
  | range tag low high =>
    cases lower : low.resolve with
    | error fault => simp [named, Names, lower]
    | ok lo =>
      cases upper : high.resolve with
      | error fault => simp [named, Names, lower, upper]
      | ok hi =>
        simp only [named, lower, upper, mem_byteInterval, names_range_of_resolve lower upper]

namespace Table

theorem apply_eq_map (m : Model) (t : Table) (rule : Rule) :
    apply m t rule = (rule.target m).map fun target => insertOn m target.1 target.2 t := by
  cases rule with
  | points tag bytes =>
    simp only [apply, applyPoints, Rule.target]
    cases m.tagId tag with
    | error fault => rfl
    | ok id =>
      cases bytes.mapM ByteSpec.resolve with
      | error fault => rfl
      | ok resolved => rfl
  | range tag low high =>
    simp only [apply, applyRange, Rule.target]
    cases m.tagId tag with
    | error fault => rfl
    | ok id =>
      cases low.resolve with
      | error fault => rfl
      | ok lo =>
        cases high.resolve with
        | error fault => rfl
        | ok hi =>
          by_cases inverted : hi < lo
          · simp [bind, Except.bind, inverted, Except.map]
          · simp [bind, Except.bind, inverted, Except.map, pure, Except.pure]

def insertTargets (m : Model) (targets : List (TagId × List UInt8)) (t : Table) : Table :=
  targets.foldl (fun t target => insertOn m target.1 target.2 t) t

theorem applyFrom_of_targets {m : Model} {rules : List Rule} {targets : List (TagId × List UInt8)}
    (each : List.Forall₂ (fun rule target => rule.target m = .ok target) rules targets)
    (index : Nat) (t : Table) : applyFrom m index t rules = .ok (insertTargets m targets t) := by
  induction each generalizing index t with
  | nil => rfl
  | cons taken _ ih =>
    rw [applyFrom, apply_eq_map, taken]
    exact ih (index + 1) _

theorem targets_of_applyFrom {m : Model} {rules : List Rule} {index : Nat} {t u : Table}
    (ok : applyFrom m index t rules = .ok u) :
    ∃ targets, List.Forall₂ (fun rule target => rule.target m = .ok target) rules targets := by
  induction rules generalizing index t with
  | nil => exact ⟨[], .nil⟩
  | cons rule rules ih =>
    rw [applyFrom, apply_eq_map] at ok
    cases taken : rule.target m with
    | error fault =>
      rw [taken] at ok
      cases ok
    | ok target =>
      rw [taken] at ok
      obtain ⟨targets, each⟩ := ih ok
      exact ⟨target :: targets, .cons taken each⟩

/-- A program is its checks, rule by rule, followed by the insertions in their order. -/
theorem ofRules_eq_ok_iff {m : Model} {rules : List Rule} {t : Table} :
    ofRules m rules = .ok t ↔ ∃ targets,
      List.Forall₂ (fun rule target => rule.target m = .ok target) rules targets ∧
        t = insertTargets m targets (empty m) := by
  constructor
  · intro built
    obtain ⟨targets, each⟩ := targets_of_applyFrom built
    have ran := applyFrom_of_targets each 0 (empty m)
    exact ⟨targets, each, Except.ok.inj (built.symm.trans ran)⟩
  · intro ran
    obtain ⟨targets, each, rfl⟩ := ran
    exact applyFrom_of_targets each 0 (empty m)

theorem exists_ofRules_iff {m : Model} {rules : List Rule} :
    (∃ t, ofRules m rules = .ok t) ↔ ∀ rule ∈ rules, ∃ target, rule.target m = .ok target := by
  constructor
  · intro builds rule listed
    obtain ⟨t, built⟩ := builds
    obtain ⟨targets, each, _⟩ := ofRules_eq_ok_iff.mp built
    obtain ⟨target, _, taken⟩ := Traverse.mem_left each listed
    exact ⟨target, taken⟩
  · intro each
    obtain ⟨targets, taken⟩ := Traverse.mapM_success each
    have related := Traverse.forall₂_of_mapM taken
    exact ⟨_, ofRules_eq_ok_iff.mpr ⟨targets, related, rfl⟩⟩

@[simp] theorem symbols_insertTargets (m : Model)
    (targets : List (TagId × List UInt8)) (t : Table) :
    (insertTargets m targets t).symbols = t.symbols := by
  induction targets generalizing t with
  | nil => rfl
  | cons target targets ih => exact (ih _).trans (symbols_insertOn m target.1 target.2 t)

theorem mem_entry_insertTargets {m : Model} {targets : List (TagId × List UInt8)} {t : Table}
    {b : UInt8} {a : AtomId} :
    a ∈ (insertTargets m targets t).entry b ↔
      a ∈ t.entry b ∨ ∃ target ∈ targets, b ∈ target.2 ∧ a ∈ m.leaves target.1 := by
  induction targets generalizing t with
  | nil => simp [insertTargets]
  | cons target targets ih =>
    change a ∈ (insertTargets m targets (insertOn m target.1 target.2 t)).entry b ↔ _
    rw [ih, entry_insertOn]
    by_cases named : b ∈ target.2
    · simp [named, TagSet.mem_insertAll, or_assoc]
    · simp [named]

theorem symbols_ofRules {m : Model} {rules : List Rule} {t : Table}
    (built : ofRules m rules = .ok t) : t.symbols = m.symbols := by
  obtain ⟨targets, _, rfl⟩ := ofRules_eq_ok_iff.mp built
  rw [symbols_insertTargets]
  rfl

/-- An entry holds an atom when some rule names its byte and has the atom among the leaves of its
tag. -/
theorem mem_entry_ofRules {m : Model} {rules : List Rule} {t : Table}
    (built : ofRules m rules = .ok t) {b : UInt8} {a : AtomId} :
    a ∈ t.entry b ↔
      ∃ rule ∈ rules, ∃ target, rule.target m = .ok target ∧ b ∈ target.2 ∧
        a ∈ m.leaves target.1 := by
  obtain ⟨targets, each, rfl⟩ := ofRules_eq_ok_iff.mp built
  have vacant : a ∉ (empty m).entry b := by
    rw [entry_empty]
    exact List.not_mem_nil
  rw [mem_entry_insertTargets, or_iff_right vacant]
  constructor
  · intro put
    obtain ⟨target, member, named, leaf⟩ := put
    obtain ⟨rule, listed, taken⟩ := Traverse.mem_right each member
    exact ⟨rule, listed, target, taken, named, leaf⟩
  · intro ruled
    obtain ⟨rule, listed, target, taken, named, leaf⟩ := ruled
    obtain ⟨other, member, same⟩ := Traverse.mem_left each listed
    cases taken.symm.trans same
    exact ⟨target, member, named, leaf⟩

end Table

namespace Rule

variable {m : Model}

theorem target_points_eq_ok_iff {tag : String} {bytes : List ByteSpec}
    {result : TagId × List UInt8} :
    (points tag bytes).target m = .ok result ↔
      ∃ id resolved, m.tagId tag = .ok id ∧ bytes.mapM ByteSpec.resolve = .ok resolved ∧
        result = (id, resolved) := by
  simp only [target, bind_eq_ok, pure, Except.pure, Except.ok.injEq, exists_and_left,
    @eq_comm _ result]

theorem target_range_eq_ok_iff {tag : String} {low high : ByteSpec} {result : TagId × List UInt8} :
    (range tag low high).target m = .ok result ↔
      ∃ id lo hi, m.tagId tag = .ok id ∧ low.resolve = .ok lo ∧ high.resolve = .ok hi ∧ lo ≤ hi ∧
        result = (id, byteInterval lo hi) := by
  have checked (id : TagId) (lo hi : UInt8) : (if hi < lo then Except.error (.invalidRange lo hi)
      else pure (id, byteInterval lo hi)) = (.ok result : Except Fault _) ↔
        lo ≤ hi ∧ result = (id, byteInterval lo hi) := by
    split
    · rename_i inverted
      simp [UInt8.not_le.mpr inverted]
    · rename_i upright
      simp [pure, Except.pure, UInt8.not_lt.mp upright, eq_comm]
  simp only [target, bind_eq_ok, checked, exists_and_left]

/-- A target is the tag of its rule with the bytes that the rule names. -/
theorem mem_target {rule : Rule} {result : TagId × List UInt8}
    (taken : rule.target m = .ok result) :
    m.tagId rule.tag = .ok result.1 ∧ ∀ b, b ∈ result.2 ↔ rule.Names b := by
  cases rule with
  | points tag bytes =>
    obtain ⟨id, resolved, known, ok, rfl⟩ := target_points_eq_ok_iff.mp taken
    have each := Traverse.forall₂_of_mapM ok
    refine ⟨known, fun b => ⟨fun member => Traverse.mem_right each member, ?_⟩⟩
    intro names
    obtain ⟨spec, listed, named⟩ := names
    obtain ⟨c, member, same⟩ := Traverse.mem_left each listed
    cases named.symm.trans same
    exact member
  | range tag low high =>
    obtain ⟨id, lo, hi, known, lower, upper, _, rfl⟩ := target_range_eq_ok_iff.mp taken
    refine ⟨known, fun b => ?_⟩
    rw [mem_byteInterval, names_range_of_resolve lower upper]

theorem exists_target_iff {rule : Rule} :
    (∃ result, rule.target m = .ok result) ↔ (∃ id, m.tagId rule.tag = .ok id) ∧ rule.InRange := by
  cases rule with
  | points tag bytes =>
    simp only [target_points_eq_ok_iff]
    constructor
    · intro targets
      obtain ⟨_, id, resolved, known, ok, _⟩ := targets
      refine ⟨⟨id, known⟩, fun spec listed => ?_⟩
      obtain ⟨b, _, same⟩ := Traverse.mem_left (Traverse.forall₂_of_mapM ok) listed
      exact ByteSpec.exists_resolve_iff.mp ⟨b, same⟩
    · intro fine
      obtain ⟨⟨id, known⟩, small⟩ := fine
      have each : ∀ spec ∈ bytes, ∃ b, spec.resolve = .ok b := by
        intro spec listed
        exact ByteSpec.exists_resolve_iff.mpr (small spec listed)
      obtain ⟨resolved, ok⟩ := Traverse.mapM_success each
      exact ⟨_, id, resolved, known, ok, rfl⟩
  | range tag low high =>
    simp only [target_range_eq_ok_iff]
    constructor
    · intro targets
      obtain ⟨_, id, lo, hi, known, lower, upper, ordered, _⟩ := targets
      refine ⟨⟨id, known⟩, ?_, ByteSpec.exists_resolve_iff.mp ⟨hi, upper⟩⟩
      rw [UInt32.le_iff_toNat_le, ByteSpec.resolve_eq_ok_iff.mp lower,
        ByteSpec.resolve_eq_ok_iff.mp upper]
      exact ordered
    · intro fine
      obtain ⟨⟨id, known⟩, ordered, small⟩ := fine
      have first : low.value.toNat < 256 := Nat.lt_of_le_of_lt ordered small
      obtain ⟨lo, lower⟩ := ByteSpec.exists_resolve_iff.mpr first
      obtain ⟨hi, upper⟩ := ByteSpec.exists_resolve_iff.mpr small
      refine ⟨_, id, lo, hi, known, lower, upper, ?_, rfl⟩
      rw [UInt8.le_iff_toNat_le, ← ByteSpec.resolve_eq_ok_iff.mp lower,
        ← ByteSpec.resolve_eq_ok_iff.mp upper]
      exact ordered

end Rule
end CharTable
