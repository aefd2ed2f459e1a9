import CharTable.Proofs.Acceptance

/-!
The path of a reported cycle. The search works on ids; read as names, what it reports is a walk
through declared composites that returns to its first tag and meets no other twice.
-/
namespace CharTable
open Model (ofDeclarations cycleFault)

namespace Cycle.Simple

variable {tags : Array Tag} {cycle : List TagId}

theorem exists_part (simple : Simple tags cycle) {u : TagId}
    (met : u ∈ cycle) : ∃ p, IsPart tags p u := by
  obtain ⟨t, inner, rfl, _⟩ := simple.returns
  -- The last tag is the first one again, so a place with a successor can be chosen.
  have early : u ∈ t :: inner := by
    rcases List.mem_append.mp met with early | last
    · exact early
    · exact List.mem_singleton.mp last ▸ List.mem_cons_self
  obtain ⟨before, after, split⟩ := List.append_of_mem early
  have linked : (before ++ u :: (after ++ [t])).IsChain fun outer inner =>
      IsPart tags inner outer := by
    have linked := simple.linked
    rw [split] at linked
    simpa using linked
  cases after with
  | nil => exact ⟨t, linked.right_of_append.rel⟩
  | cons next after => exact ⟨next, linked.right_of_append.rel⟩

end Cycle.Simple

namespace Copy

variable {ds : List Declaration} {index : Std.TreeMap String TagId} {tags : Array Tag}
    {symbols : Array String}

/-- Tags with parts are told apart by their names. -/
theorem nameAt_inj (copy : Copy ds index tags symbols) {t u p q : TagId} (first : IsPart tags p t)
    (second : IsPart tags q u) (same : nameAt ds t = nameAt ds u) : t = u := by
  obtain ⟨_, found, _⟩ := isPart_iff.mp first
  obtain ⟨_, other, _⟩ := isPart_iff.mp second
  have left := copy.lookup_nameAt found
  rw [same, copy.lookup_nameAt other] at left
  exact (Option.some.inj left).symm

end Copy

/-- A walk through declared composites that returns to the name it starts at and meets no name twice
before. -/
structure Loop (ds : List Declaration) (name : String) (path : List String) : Prop where
  long : 2 ≤ path.length
  first : path.head? = some name
  last : path.getLast? = some name
  distinct : path.dropLast.Nodup
  composite : ∀ p ∈ path, ∃ parts, ⟨p, .composite parts⟩ ∈ ds
  linked : path.IsChain fun whole part => PartOf ds part whole

/-- A simple cycle of tags reads as a loop of declared composites. -/
theorem Copy.loop {ds : List Declaration} {index : Std.TreeMap String TagId} {tags : Array Tag}
    {symbols : Array String} {cycle : List TagId} (copy : Copy ds index tags symbols)
    (simple : Cycle.Simple tags cycle) : ∃ name, Loop ds name (cycle.map (nameAt ds)) := by
  obtain ⟨t, inner, shape, distinct⟩ := simple.returns
  have walk : cycle.map (nameAt ds) = (t :: inner).map (nameAt ds) ++ [nameAt ds t] := by
    rw [shape, List.map_append, List.map_singleton]
  refine ⟨nameAt ds t, ?_, ?_, ?_, ?_, ?_, ?_⟩
  · simp [walk]
  · simp [walk]
  · rw [walk, List.getLast?_concat]
  · rw [walk, List.dropLast_concat]
    apply List.Nodup.map_on ?_ distinct
    intro u here v there same
    have met (w : TagId) (inside : w ∈ t :: inner) : ∃ p, IsPart tags p w :=
      simple.exists_part (shape ▸ List.mem_append_left [t] inside)
    obtain ⟨p, part⟩ := met u here
    obtain ⟨q, other⟩ := met v there
    exact copy.nameAt_inj part other same
  · intro name member
    obtain ⟨u, met, rfl⟩ := List.mem_map.mp member
    obtain ⟨p, part⟩ := simple.exists_part met
    obtain ⟨parts, declared, _⟩ := copy.partOf_of_isPart part
    exact ⟨parts, declared⟩
  · rw [List.isChain_map]
    exact simple.linked.imp fun _ _ part => copy.partOf_of_isPart part

theorem cycleFault_names (ds : List Declaration) (cycle : List TagId) :
    cycleFault (ds.map Declaration.name).toArray cycle =
      .cyclicComposite ((cycle.map (nameAt ds)).headD "") (cycle.map (nameAt ds)) := by
  have same : (fun t : TagId => (ds.map Declaration.name).toArray[t.toNat]?.getD "") =
      nameAt ds := by
    funext t
    simp [nameAt]
  rw [cycleFault, same]

/-- Only the cycle search reports a cycle, and only about names that are distinct. -/
theorem exists_simple_of_cyclicComposite {ds : List Declaration} {name : String}
    {path : List String} (failed : ofDeclarations ds = .error (.cyclicComposite name path)) :
    (ds.map Declaration.name).Nodup ∧
      ∃ index tags symbols cycle, Copy ds index tags symbols ∧ Cycle.Simple tags cycle ∧
        path = cycle.map (nameAt ds) ∧ name = path.headD "" := by
  rcases resolvable_or_error ds with ⟨distinct, small, fine⟩ | ⟨fault, other, apart⟩
  · refine ⟨(not_repeats_iff small).mp distinct, ?_⟩
    obtain ⟨index, tags, symbols, copy, searched⟩ := ofDeclarations_searched distinct small fine
    cases found : Cycle.cycle? tags with
    | none =>
      rw [searched, dif_pos found] at failed
      cases failed
    | some cycle =>
      have cyclic : Cycle.cycle? tags ≠ none := by simp [found]
      rw [searched, dif_neg cyclic, found, Option.getD_some, cycleFault_names] at failed
      cases failed
      exact ⟨index, tags, symbols, cycle, copy, Cycle.simple_of_cycle? found, rfl, rfl⟩
  · rw [failed] at other
    cases other
    exact absurd rfl (apart name path)

/-- A reported cycle is one of the declarations: its path leads from the reported name back to it,
from each composite to one of the parts that its only declaration lists, and through no composite
twice. -/
theorem loop_of_cyclicComposite {ds : List Declaration} {name : String} {path : List String}
    (failed : ofDeclarations ds = .error (.cyclicComposite name path)) :
    (ds.map Declaration.name).Nodup ∧ Loop ds name path := by
  obtain ⟨distinct, index, tags, symbols, cycle, copy, simple, rfl, rfl⟩ :=
    exists_simple_of_cyclicComposite failed
  obtain ⟨name, loop⟩ := copy.loop simple
  have same : (cycle.map (nameAt ds)).headD "" = name := by
    rw [List.headD_eq_head?_getD, loop.first, Option.getD_some]
  exact ⟨distinct, same ▸ loop⟩

def loopTags : List Declaration :=
  [.composite "A" ["B"], .composite "B" ["D", "C"], .composite "C" ["B"], .atomic "D" "X"]

theorem loop_loopTags : ofDeclarations loopTags = .error (.cyclicComposite "B" ["B", "C", "B"]) ∧
    (loopTags.map Declaration.name).Nodup ∧ Loop loopTags "B" ["B", "C", "B"] := by
  have failed : ofDeclarations loopTags = .error (.cyclicComposite "B" ["B", "C", "B"]) := by cbv
  exact ⟨failed, loop_of_cyclicComposite failed⟩

end CharTable
