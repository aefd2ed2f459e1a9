import CharTable.Proofs.Meaning
import CharTable.Proofs.Occurrence

/-!
What a tag expands to. Its leaves are the unfolding of its name through the declarations, depth
first and in declared order; the expansion keeps the first occurrence of each of them and nothing
else.
-/
namespace CharTable
open Model (ofDeclarations)

/-- A set grows by the first occurrences of what it lacks, in order. -/
theorem TagSet.atoms_insertAll (s : TagSet) (atoms : List AtomId) :
    (s.insertAll atoms).atoms = s.atoms ++ atoms.eraseDups.filter (· ∉ s.atoms) := by
  induction atoms using List.reverseRecOn with
  | nil => simp
  | append_singleton atoms a ih =>
    have present : a ∈ (s.insertAll atoms).atoms ↔ a ∈ s.atoms ∨ a ∈ atoms := mem_insertAll
    rw [insertAll_append]
    change ((s.insertAll atoms).insert a).atoms = _
    rw [atoms_insert, eraseDups_concat]
    by_cases early : a ∈ atoms
    · rw [if_pos (present.mpr (Or.inr early)), if_pos early, ih]
    by_cases held : a ∈ s.atoms
    · rw [if_pos (present.mpr (Or.inl held)), if_neg early, ih]
      simp [held]
    · have absent : a ∉ (s.insertAll atoms).atoms :=
        fun member => (present.mp member).elim held early
      rw [if_neg absent, if_neg early, ih]
      simp [held]

namespace Model

theorem foldl_expandInto (m : Model) (parts : List TagId) (s : TagSet)
    (each : ∀ p ∈ parts, ∀ s : TagSet, m.expandInto p s.atoms = (s.insertAll (m.leaves p)).atoms) :
    parts.foldl (fun found p => m.expandInto p found) s.atoms =
        (s.insertAll (parts.flatMap m.leaves)).atoms := by
  induction parts generalizing s with
  | nil => rfl
  | cons p parts ih =>
    rw [List.foldl_cons, each p (by simp), ih _ fun q member => each q (by simp [member])]
    simp [TagSet.insertAll_append]

theorem expandInto_atoms (m : Model) (t : TagId) (s : TagSet) :
    m.expandInto t s.atoms = (s.insertAll (m.leaves t)).atoms := by
  induction t using m.descends.induction generalizing s with
  | _ t ih =>
    rw [expandInto_eq]
    cases found : m.tag? t with
    | none => simp [leaves_eq, found]
    | some tag =>
      cases tag with
      | atomic a =>
        rw [leaves_atomic found]
        exact (TagSet.atoms_insert s a).symm
      | composite parts =>
        rw [leaves_composite found]
        exact foldl_expandInto m parts s fun p part u => ih p (isPart_of_tag? found part) u

theorem expand_eq_insertAll (m : Model) (t : TagId) :
    m.expand t = (TagSet.empty.insertAll (m.leaves t)).atoms :=
  expandInto_atoms m t .empty

theorem nodup_expand (m : Model) (t : TagId) : (m.expand t).Nodup := by
  rw [expand_eq_insertAll]
  exact TagSet.distinct _

/-- The expansion keeps each leaf where it occurs first. -/
theorem expand_eq_eraseDups (m : Model) (t : TagId) : m.expand t = (m.leaves t).eraseDups := by
  rw [expand_eq_insertAll, TagSet.atoms_insertAll]
  simp [TagSet.empty]

theorem mem_expand {m : Model} {t : TagId} {a : AtomId} : a ∈ m.expand t ↔ a ∈ m.leaves t := by
  rw [expand_eq_eraseDups, List.mem_eraseDups]

end Model

/-- The symbols met when names are unfolded from the front: a composite gives way to its parts, in
declared order. -/
inductive Unfolds (ds : List Declaration) : (todo met : List String) → Prop
  | done : Unfolds ds [] []
  | symbol {name symbol : String} {todo met : List String} (declared : ⟨name, .atomic symbol⟩ ∈ ds)
      (rest : Unfolds ds todo met) : Unfolds ds (name :: todo) (symbol :: met)
  | parts {name : String} {parts todo met : List String} (declared : ⟨name, .composite parts⟩ ∈ ds)
      (rest : Unfolds ds (parts ++ todo) met) : Unfolds ds (name :: todo) met

/-- A name unfolds in one way only. -/
theorem Unfolds.unique {ds : List Declaration} {todo met others : List String}
    (formed : WellFormed ds) (first : Unfolds ds todo met)
    (second : Unfolds ds todo others) : met = others := by
  induction first generalizing others with
  | done =>
    cases second
    rfl
  | symbol declared _ ih =>
    cases second with
    | symbol again rest =>
      cases formed.eq_of_name declared again rfl
      rw [ih rest]
    | parts again _ => cases formed.eq_of_name declared again rfl
  | parts declared _ ih =>
    cases second with
    | symbol again _ => cases formed.eq_of_name declared again rfl
    | parts again rest =>
      cases formed.eq_of_name declared again rfl
      exact ih rest

/-- The symbols of the leaves of some tags are what the names of these tags unfold to, whatever
follows them. -/
structure Unfolding (ds : List Declaration) (m : Model) (names : List String) (ids : List TagId)
    (symbols : List String) : Prop where
  spelled : (ids.flatMap m.leaves).map m.symbol? = symbols.map some
  unfolds : ∀ todo met, Unfolds ds todo met → Unfolds ds (names ++ todo) (symbols ++ met)

namespace Model.Copies

variable {m : Model} {ds : List Declaration}

theorem unfolding_of_parts {parts : List String} {ids : List TagId}
    (each : List.Forall₂ (fun part id => m.index[part]? = some id) parts ids)
    (below : ∀ p ∈ ids, ∀ part, m.index[part]? = some p →
    ∃ symbols, Unfolding ds m [part] [p] symbols) :
    ∃ symbols, Unfolding ds m parts ids symbols := by
  induction each with
  | nil => exact ⟨[], rfl, fun _ _ rest => rest⟩
  | @cons part p parts ids known _ ih =>
    obtain ⟨first, spelled, unfolds⟩ := below p List.mem_cons_self part known
    obtain ⟨others, spelledOn, unfoldsOn⟩ :=
      ih fun q member => below q (List.mem_cons_of_mem p member)
    rw [List.flatMap_singleton] at spelled
    refine ⟨first ++ others, ?_, fun todo met rest => ?_⟩
    · rw [List.flatMap_cons, List.map_append, List.map_append, spelled, spelledOn]
    · rw [List.append_assoc]
      exact unfolds _ _ (unfoldsOn todo met rest)

/-- The name of every tag unfolds, to the symbols of its leaves. -/
theorem exists_unfolding (copies : m.Copies ds) {name : String} {t : TagId}
    (known : m.index[name]? = some t) : ∃ symbols, Unfolding ds m [name] [t] symbols := by
  induction t using m.descends.induction generalizing name with
  | _ t ih =>
    obtain ⟨d, here, rfl⟩ := copies.numbers.getElem?_of_lookup known
    have declared : d ∈ ds := List.mem_of_getElem? here
    obtain ⟨tag, found, resolves⟩ := copies.tag_of_getElem? here
    cases resolves with
    | @atomic name symbol a held =>
      have spelled : m.symbol? a = some symbol := by simpa [symbol?] using held
      refine ⟨[symbol], ?_, fun todo met rest => .symbol declared rest⟩
      simp [leaves_atomic found, spelled]
    | @composite name parts ids some each =>
      obtain ⟨symbols, spelled, unfolds⟩ := unfolding_of_parts each fun p listed part numbered =>
        ih p (isPart_of_tag? found listed) numbered
      refine ⟨symbols, ?_, fun todo met rest => .parts declared (unfolds todo met rest)⟩
      rw [List.flatMap_singleton, leaves_composite found, spelled]

theorem leaves_ne_nil (copies : m.Copies ds) {t : TagId} {tag : Tag} (found : m.tag? t = some tag) :
    m.leaves t ≠ [] := by
  -- Every composite has a part, so a descent ends nowhere but in an atom.
  induction t using m.descends.induction generalizing tag with
  | _ t ih =>
    obtain ⟨d, _, resolves⟩ := copies.getElem?_of_tag found
    cases resolves with
    | atomic held => simp [leaves_atomic found]
    | @composite name parts ids some each =>
      obtain ⟨part, listed⟩ := List.exists_mem_of_ne_nil parts some
      obtain ⟨p, inside, _⟩ := Traverse.mem_left each listed
      have isPart : IsPart m.tags p t := isPart_of_tag? found inside
      obtain ⟨below, there⟩ := copies.tag_of_isPart isPart
      obtain ⟨a, leaf⟩ := List.exists_mem_of_ne_nil _ (ih p isPart there)
      exact List.ne_nil_of_mem (leaves_of_isPart isPart leaf)

theorem name?_of_lookup (copies : m.Copies ds) {name : String} {t : TagId}
    (known : m.index[name]? = some t) : m.name? t = some name := by
  obtain ⟨d, here, rfl⟩ := copies.numbers.getElem?_of_lookup known
  simp [name?, copies.names, here]

theorem symbol?_injective (copies : m.Copies ds) {a b : AtomId} {s : String}
    (first : m.symbol? a = some s) (second : m.symbol? b = some s) : a = b :=
  Table.symbol?_injective (t := Table.empty m) copies.distinct first second

/-- The leaves of a tag are the atoms of the symbols that its name carries. -/
theorem mem_leaves_iff (copies : m.Copies ds) {name : String} {t : TagId} {a : AtomId}
    (known : m.index[name]? = some t) :
    a ∈ m.leaves t ↔ ∃ s, m.symbol? a = some s ∧ Carries ds name s := by
  constructor
  · exact copies.carries_of_mem_leaves known
  · intro reached
    obtain ⟨s, held, carried⟩ := reached
    obtain ⟨b, leaf, same⟩ := copies.mem_leaves_of_carries known carried
    exact copies.symbol?_injective held same ▸ leaf

end Model.Copies

/-- The expansion of a tag is its leaves, each kept where it first occurs. The leaves spell what the
name of the tag unfolds to, and they are the atoms of the symbols that the tag carries, of which
there is at least one. -/
theorem expand_first_occurrences {ds : List Declaration} {m : Model} {t : TagId} {tag : Tag}
    (accepted : ofDeclarations ds = .ok m) (found : m.tag? t = some tag) :
    ∃ name symbols, m.name? t = some name ∧ (∀ met, Unfolds ds [name] met ↔ met = symbols) ∧
      (m.leaves t).map m.symbol? = symbols.map some ∧ m.expand t = (m.leaves t).eraseDups ∧
      (m.expand t).Nodup ∧ m.expand t ≠ [] ∧
      (∀ a, a ∈ m.expand t ↔ ∃ s, m.symbol? a = some s ∧ Carries ds name s) ∧
      (m.expand t).Pairwise fun a b => (m.leaves t).idxOf a < (m.leaves t).idxOf b := by
  have formed := wellFormed_of_ofDeclarations accepted
  have copies := copies_of_ofDeclarations accepted
  have known := copies.lookup_nameAt found
  obtain ⟨symbols, spelled, unfolds⟩ := copies.exists_unfolding known
  have unfolded : Unfolds ds [nameAt ds t] symbols := by simpa using unfolds [] [] .done
  refine ⟨nameAt ds t, symbols, copies.name?_of_lookup known, fun met => ?_, ?_,
    m.expand_eq_eraseDups t, m.nodup_expand t, ?_, fun a => ?_, ?_⟩
  · constructor
    · exact fun other => other.unique formed unfolded
    · intro same
      exact same ▸ unfolded
  · rwa [List.flatMap_singleton] at spelled
  · obtain ⟨a, leaf⟩ := List.exists_mem_of_ne_nil _ (copies.leaves_ne_nil found)
    exact List.ne_nil_of_mem (Model.mem_expand.mpr leaf)
  · rw [Model.mem_expand]
    exact copies.mem_leaves_iff known
  · rw [Model.expand_eq_eraseDups]
    exact pairwise_eraseDups _

/-- A nested composite, and a second name for a symbol that is met before. -/
example :
    (ofDeclarations [.composite "T" ["A", "P", "C"], .composite "P" ["B", "A"], .atomic "A" "X",
        .atomic "B" "Y", .atomic "C" "X"]).map (fun m => (m.expand (.ofNat 0)).map m.symbol?) =
        .ok [some "X", some "Y"] := by
  cbv

theorem expand_diamond :
    ∃ m t a, ofDeclarations (diamond "T" "L" "R" "B" "X") = .ok m ∧ m.name? t = some "T" ∧
      m.symbol? a = some "X" ∧ m.leaves t = [a, a] ∧ m.expand t = [a] := by
  obtain ⟨m, copies, accepted⟩ :=
    (wellFormed_diamond "X" (show ["T", "L", "R", "B"].Nodup by decide)).ofDeclarations
  have declared : "T" ∈ (diamond "T" "L" "R" "B" "X").map Declaration.name := by decide
  obtain ⟨t, known⟩ := copies.numbers.lookup_of_mem declared
  obtain ⟨tag, found⟩ := copies.tag_of_lookup known
  obtain ⟨name, symbols, named, unfolds, spelled, erased, _⟩ :=
    expand_first_occurrences accepted found
  have same : name = "T" := Option.some.inj (named.symm.trans (copies.name?_of_lookup known))
  subst same
  have left : Unfolds (diamond "T" "L" "R" "B" "X") ["L", "R"] ["X", "X"] := by
    apply Unfolds.parts (show ⟨"L", .composite ["B"]⟩ ∈ diamond "T" "L" "R" "B" "X" by decide)
    apply Unfolds.symbol (show ⟨"B", .atomic "X"⟩ ∈ diamond "T" "L" "R" "B" "X" by decide)
    apply Unfolds.parts (show ⟨"R", .composite ["B"]⟩ ∈ diamond "T" "L" "R" "B" "X" by decide)
    exact .symbol (by decide) .done
  have top : ⟨"T", .composite ["L", "R"]⟩ ∈ diamond "T" "L" "R" "B" "X" := by decide
  rw [← (unfolds _).mp (.parts top left)] at spelled
  obtain ⟨a, rest, leaves, held, others⟩ := List.map_eq_cons_iff.mp spelled
  obtain ⟨b, none, rfl, again, ended⟩ := List.map_eq_cons_iff.mp others
  cases List.map_eq_nil_iff.mp ended
  cases copies.symbol?_injective held again
  refine ⟨m, t, a, accepted, named, held, leaves, ?_⟩
  rw [erased, leaves, List.eraseDups_cons]
  simp

end CharTable
