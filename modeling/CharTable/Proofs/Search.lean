import CharTable.Model.Cycle
import Mathlib.Data.List.Chain
import Mathlib.Data.List.Nodup
import Mathlib.Order.WellFounded

/-!
The cycle search is exact: it reports a cycle if and only if some tag descends to itself, and what
it reports is a simple descent that ends where it begins.
-/
namespace CharTable.Cycle

/-- The path holds exactly the tags marked as on it, no one twice, each a part of the next. -/
structure Tracks (tags : Array Tag) (marks : Array Mark) (path : List TagId) : Prop where
  marked : ∀ u, markOf marks u = .onPath ↔ u ∈ path
  distinct : path.Nodup
  linked : path.IsChain (IsPart tags)

/-- A descent to parts that meets its first tag again at the end and no tag twice before. -/
structure Simple (tags : Array Tag) (cycle : List TagId) : Prop where
  returns : ∃ t inner, cycle = t :: inner ++ [t] ∧ (t :: inner).Nodup
  linked : cycle.IsChain fun outer inner => IsPart tags inner outer

theorem Tracks.fresh_not_mem {tags : Array Tag} {marks : Array Mark} {path : List TagId} {t : TagId}
    (tracks : Tracks tags marks path) (fresh : markOf marks t = .fresh) : t ∉ path := by
  intro member
  have marked := (tracks.marked t).mpr member
  rw [fresh] at marked
  cases marked

theorem Tracks.enter {tags : Array Tag} {marks : Array Mark} {path : List TagId} {t : TagId}
    (tracks : Tracks tags marks path) (fresh : markOf marks t = .fresh)
    (linked : (t :: path).IsChain (IsPart tags)) :
    Tracks tags (setMark marks t .onPath) (t :: path) := by
  refine ⟨?_, List.nodup_cons.mpr ⟨tracks.fresh_not_mem fresh, tracks.distinct⟩, linked⟩
  intro u
  rw [markOf_setMark _ _ _ _ (inside_of_ne_closed (by simp [fresh])), List.mem_cons]
  by_cases same : u = t
  · simp [same]
  · simp [same, tracks.marked u]

theorem Tracks.skip {tags : Array Tag} {marks : Array Mark} {path : List TagId} {t : TagId}
    (tracks : Tracks tags marks path) (fresh : markOf marks t = .fresh) :
    Tracks tags (setMark marks t .closed) path := by
  refine ⟨?_, tracks.distinct, tracks.linked⟩
  intro u
  rw [markOf_setMark_closed]
  by_cases same : u = t
  · simp [same, tracks.fresh_not_mem fresh]
  · simp [same, tracks.marked u]

theorem Tracks.leave {tags : Array Tag} {marks : Array Mark} {path : List TagId} {t : TagId}
    (tracks : Tracks tags marks (t :: path)) : Tracks tags (setMark marks t .closed) path := by
  obtain ⟨absent, distinct⟩ := List.nodup_cons.mp tracks.distinct
  refine ⟨?_, distinct, tracks.linked.tail⟩
  intro u
  rw [markOf_setMark_closed]
  by_cases same : u = t
  · simp [same, absent]
  · simp [same, tracks.marked u]

theorem cycleAt_append {t : TagId} {inner outer : List TagId} (absent : t ∉ inner) :
    cycleAt t (inner ++ t :: outer) = t :: inner.reverse ++ [t] := by
  have taken : (inner ++ t :: outer).takeWhile (· ≠ t) = inner := by
    rw [List.takeWhile_append_of_pos]
    · simp
    · intro u member
      simpa using fun same : u = t => absent (same ▸ member)
  rw [cycleAt, taken]

theorem Tracks.simple_cycleAt {tags : Array Tag} {marks : Array Mark} {path : List TagId}
    {t : TagId} (tracks : Tracks tags marks path) (met : markOf marks t = .onPath)
    (linked : (t :: path).IsChain (IsPart tags)) : Simple tags (cycleAt t path) := by
  obtain ⟨inner, outer, split, absent⟩ := List.eq_append_cons_of_mem ((tracks.marked t).mp met)
  have shape : cycleAt t path = t :: inner.reverse ++ [t] := by
    rw [split, cycleAt_append absent]
  have reversed : cycleAt t path = (t :: (inner ++ [t])).reverse := by
    rw [shape]
    simp
  refine ⟨⟨t, inner.reverse, shape, ?_⟩, ?_⟩
  · have distinct : (inner ++ t :: outer).Nodup := split ▸ tracks.distinct
    rw [List.nodup_cons, List.mem_reverse, List.nodup_reverse]
    exact ⟨absent, distinct.of_append_left⟩
  · rw [reversed, List.isChain_reverse]
    refine linked.prefix ⟨outer, ?_⟩
    simp [split]

theorem chain_parts {tags : Array Tag} {path parts : List TagId} {t : TagId}
    (found : tags[t.toNat]? = some (.composite parts))
    (linked : (t :: path).IsChain (IsPart tags)) :
    ∀ p ∈ parts, (p :: t :: path).IsChain (IsPart tags) := by
  intro p part
  exact List.IsChain.cons_cons (isPart_iff.mpr ⟨parts, found, part⟩) linked

/-- While the path is tracked and all that is to do is a part of its innermost tag, a search that
stops reports a simple cycle, and one that ends leaves the path as it was. -/
theorem close_tracks (tags : Array Tag) (limit : Nat) (path todo : List TagId) (marks : Array Mark)
    (within : freshCount marks ≤ limit) (tracks : Tracks tags marks path)
    (entered : ∀ t ∈ todo, (t :: path).IsChain (IsPart tags)) :
    (∀ cycle, close tags limit path todo marks within = .error cycle → Simple tags cycle) ∧
      ∀ after, close tags limit path todo marks within = .ok after → Tracks tags after.1 path := by
  fun_induction close tags limit path todo marks within with
  | case1 limit path marks within =>
    refine ⟨fun cycle stopped => (by cases stopped), fun after ended => ?_⟩
    cases ended
    exact tracks
  -- A closed tag is passed over.
  | case2 limit path marks within t rest seen ih =>
    exact ih tracks fun u member => entered u (List.mem_cons_of_mem t member)
  -- A tag on the path closes a cycle.
  | case3 limit path marks within t rest seen =>
    refine ⟨fun cycle stopped => ?_, fun after ended => by cases ended⟩
    cases stopped
    exact tracks.simple_cycleAt seen (entered t (by simp))
  | case4 limit path marks within t rest seen parts found cycle inner ih =>
    refine ⟨fun reported stopped => ?_, fun after ended => by cases ended⟩
    cases stopped
    have linked := entered t (by simp)
    exact (ih (tracks.enter seen linked) (chain_parts found linked)).1 cycle inner
  | case5 limit path marks within t rest seen parts found below fewer inner ihInner ihRest =>
    have linked := entered t (by simp)
    have kept := (ihInner (tracks.enter seen linked) (chain_parts found linked)).2 _ inner
    exact ihRest kept.leave fun u member => entered u (List.mem_cons_of_mem t member)
  | case6 limit path marks within t rest seen other ih =>
    exact ih (tracks.skip seen) fun u member => entered u (List.mem_cons_of_mem t member)

theorem tracks_fresh (tags : Array Tag) (n : Nat) : Tracks tags (Array.replicate n .fresh) [] := by
  refine ⟨?_, List.nodup_nil, .nil⟩
  intro u
  by_cases inside : u.toNat < n <;> simp [markOf, inside]

/-- A cycle that is found is simple. -/
theorem simple_of_cycle? {tags : Array Tag} {cycle : List TagId}
    (found : cycle? tags = some cycle) : Simple tags cycle := by
  have exact :=
    (close_tracks tags _ [] (allIds tags.size) (Array.replicate tags.size .fresh) (Nat.le_refl _)
      (tracks_fresh tags tags.size) fun t _ => .singleton t).1
  unfold cycle? search at found
  cases run : close tags _ [] (allIds tags.size) (Array.replicate tags.size .fresh)
    (Nat.le_refl _) with
  | error reported =>
    have same : reported = cycle := by simpa [run, Except.map] using found
    exact same ▸ exact reported run
  | ok after => simp [run, Except.map] at found

theorem Simple.descends {tags : Array Tag} {cycle : List TagId} (simple : Simple tags cycle) :
    ∃ t, Relation.TransGen (IsPart tags) t t := by
  obtain ⟨t, inner, rfl, _⟩ := simple.returns
  have upward : (t :: (inner.reverse ++ [t])).IsChain (IsPart tags) := by
    have linked := List.isChain_reverse.mpr simple.linked
    simpa using linked
  refine ⟨t, ?_⟩
  cases reversed : inner.reverse with
  | nil =>
    rw [reversed] at upward
    exact .single upward.rel
  | cons p rest =>
    rw [reversed] at upward
    refine .head' upward.rel ?_
    exact List.relationReflTransGen_of_exists_isChain_cons _ upward.tail (by simp)

/-- The search reports nothing exactly when no tag descends to itself. -/
theorem cycle?_eq_none_iff (tags : Array Tag) :
    cycle? tags = none ↔ ∀ t, ¬ Relation.TransGen (IsPart tags) t t := by
  constructor
  · intro quiet t descent
    exact (wellFounded_of_cycle? quiet).transGen.irrefl.irrefl t descent
  · intro acyclic
    cases reported : cycle? tags with
    | none => rfl
    | some cycle =>
      obtain ⟨t, descent⟩ := (simple_of_cycle? reported).descends
      exact absurd descent (acyclic t)

end CharTable.Cycle
