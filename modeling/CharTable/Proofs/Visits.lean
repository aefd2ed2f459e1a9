import CharTable.Proofs.CyclePath
import Mathlib.Data.List.Perm.Subperm

/-!
The visits of the cycle search, one by one. A search is told again as a run of nested visits that
share the marks and one stack; the run exists, there is no other, and it ends as the search does.
Whatever the tags, no part list is gone through twice, the stack is the tracked path at every visit,
and a visit that comes back has closed all that its tag reaches.
-/
namespace CharTable.Cycle
open Model (maxTags indexNames resolveTags)
open Relation (ReflTransGen)

structure Snapshot where
  marks : Array Mark
  stack : List TagId

namespace Snapshot

def fresh (n : Nat) : Snapshot := ⟨Array.replicate n .fresh, []⟩
def enter (s : Snapshot) (t : TagId) : Snapshot := ⟨setMark s.marks t .onPath, t :: s.stack⟩
def leave (s : Snapshot) (t : TagId) : Snapshot := ⟨setMark s.marks t .closed, s.stack.tail⟩
def skip (s : Snapshot) (t : TagId) : Snapshot := ⟨setMark s.marks t .closed, s.stack⟩

def position? (s : Snapshot) (t : TagId) : Option Nat := s.stack.reverse.idxOf? t

def loop (s : Snapshot) (t : TagId) : List TagId :=
  s.stack.reverse.drop ((s.position? t).getD 0) ++ [t]

end Snapshot

/-- A visit to a tag: how many visits are open with it, what it finds, whether it goes through the
parts of the tag, and what it leaves, unless a cycle stops it. -/
structure Visit where
  tag : TagId
  depth : Nat
  before : Snapshot
  enters : Bool
  after? : Option Snapshot

/-- Visits to tags in turn, each with the visits to its parts right after it, and how they end. -/
inductive Runs (tags : Array Tag) :
    Nat → Snapshot → List TagId → List Visit → Except (List TagId) Snapshot → Prop
  | done {depth : Nat} {s : Snapshot} : Runs tags depth s [] [] (.ok s)
  | closed {depth : Nat} {s : Snapshot} {t : TagId} {rest : List TagId} {others : List Visit}
      {result : Except (List TagId) Snapshot} (seen : markOf s.marks t = .closed)
      (later : Runs tags depth s rest others result) :
      Runs tags depth s (t :: rest) (⟨t, depth, s, false, some s⟩ :: others) result
  | met {depth : Nat} {s : Snapshot} {t : TagId} {rest : List TagId}
      (seen : markOf s.marks t = .onPath) :
      Runs tags depth s (t :: rest) [⟨t, depth, s, false, none⟩] (.error (s.loop t))
  | plain {depth : Nat} {s : Snapshot} {t : TagId} {rest : List TagId} {others : List Visit}
      {result : Except (List TagId) Snapshot} (seen : markOf s.marks t = .fresh)
      (single : ∀ parts, tags[t.toNat]? ≠ some (.composite parts))
      (later : Runs tags depth (s.skip t) rest others result) :
      Runs tags depth s (t :: rest) (⟨t, depth, s, false, some (s.skip t)⟩ :: others) result
  | stopped {depth : Nat} {s : Snapshot} {t : TagId} {rest parts cycle : List TagId}
      {below : List Visit} (seen : markOf s.marks t = .fresh)
      (found : tags[t.toNat]? = some (.composite parts))
      (inner : Runs tags (depth + 1) (s.enter t) parts below (.error cycle)) :
      Runs tags depth s (t :: rest) (⟨t, depth, s, true, none⟩ :: below) (.error cycle)
  | entered {depth : Nat} {s middle : Snapshot} {t : TagId} {rest parts : List TagId}
      {below others : List Visit} {result : Except (List TagId) Snapshot}
      (seen : markOf s.marks t = .fresh) (found : tags[t.toNat]? = some (.composite parts))
      (inner : Runs tags (depth + 1) (s.enter t) parts below (.ok middle))
      (later : Runs tags depth (middle.leave t) rest others result) :
      Runs tags depth s (t :: rest)
          (⟨t, depth, s, true, some (middle.leave t)⟩ :: (below ++ others)) result

def entries (visits : List Visit) : List TagId := (visits.filter Visit.enters).map Visit.tag

structure Sane (tags : Array Tag) (s : Snapshot) : Prop where
  sized : s.marks.size = tags.size
  tracks : Tracks tags s.marks s.stack
  sealed : ∀ t p, markOf s.marks t = .closed → IsPart tags p t → markOf s.marks p = .closed

structure Due (tags : Array Tag) (s : Snapshot) (t : TagId) : Prop where
  inside : t.toNat < tags.size
  linked : (t :: s.stack).IsChain (IsPart tags)

/-- What is left after visits to some tags: they are closed, no mark of closed is lost, and the
stack is as before. -/
structure Settles (tags : Array Tag) (s : Snapshot) (todo : List TagId)
    (after : Snapshot) : Prop where
  sane : Sane tags after
  restored : after.stack = s.stack
  kept : ∀ u, markOf s.marks u = .closed → markOf after.marks u = .closed
  closed : ∀ t ∈ todo, markOf after.marks t = .closed

structure Visit.Sound (tags : Array Tag) (v : Visit) : Prop where
  sane : Sane tags v.before
  due : Due tags v.before v.tag
  deep : v.depth = v.before.stack.length + 1
  settles : ∀ after, v.after? = some after → Settles tags v.before [v.tag] after

section Steps

variable {tags : Array Tag} {s middle after : Snapshot} {t : TagId}

theorem size_setMark (marks : Array Mark) (t : TagId) (m : Mark) :
    (setMark marks t m).size = marks.size := by
  simp [setMark]

theorem markOf_enter (seen : markOf s.marks t = .fresh) (u : TagId) :
    markOf (s.enter t).marks u = if u = t then .onPath else markOf s.marks u :=
  markOf_setMark _ _ _ _ (inside_of_ne_closed (by simp [seen]))

theorem closed_enter_iff (seen : markOf s.marks t = .fresh) {u : TagId} :
    markOf (s.enter t).marks u = .closed ↔ markOf s.marks u = .closed := by
  rw [markOf_enter seen]
  by_cases same : u = t
  · simp [same, seen]
  · simp [same]

theorem Sane.enter (sane : Sane tags s) (due : Due tags s t) (seen : markOf s.marks t = .fresh) :
    Sane tags (s.enter t) := by
  refine ⟨(size_setMark _ _ _).trans sane.sized, sane.tracks.enter seen due.linked,
    fun u p shut part => ?_⟩
  rw [closed_enter_iff seen] at shut ⊢
  exact sane.sealed u p shut part

theorem Due.part {parts : List TagId} (complete : ∀ p u, IsPart tags p u → p.toNat < tags.size)
    (due : Due tags s t) (found : tags[t.toNat]? = some (.composite parts)) {p : TagId}
    (listed : p ∈ parts) : Due tags (s.enter t) p :=
  ⟨complete p t (isPart_iff.mpr ⟨parts, found, listed⟩), chain_parts found due.linked p listed⟩

theorem Due.congr (due : Due tags s t) (same : after.stack = s.stack) : Due tags after t :=
  ⟨due.inside, same ▸ due.linked⟩

/-- Closing a tag whose parts are closed leaves nothing open below a closed tag. -/
theorem sealed_setMark {marks : Array Mark}
    (sealed : ∀ u p, markOf marks u = .closed → IsPart tags p u → markOf marks p = .closed)
    (parts : ∀ p, IsPart tags p t → markOf marks p = .closed) (u p : TagId)
    (shut : markOf (setMark marks t .closed) u = .closed) (part : IsPart tags p u) :
    markOf (setMark marks t .closed) p = .closed := by
  have below : markOf marks p = .closed := by
    rw [markOf_setMark_closed] at shut
    by_cases same : u = t
    · exact parts p (same ▸ part)
    · exact sealed u p (by simpa [same] using shut) part
  rw [markOf_setMark_closed, below, ite_self]

theorem Settles.refl (sane : Sane tags s) : Settles tags s [] s :=
  ⟨sane, rfl, fun _ shut => shut, by simp⟩

theorem Settles.of_closed (sane : Sane tags s)
    (seen : markOf s.marks t = .closed) : Settles tags s [t] s :=
  ⟨sane, rfl, fun _ shut => shut, by simpa using seen⟩

theorem Settles.skip (sane : Sane tags s) (seen : markOf s.marks t = .fresh)
    (single : ∀ parts, tags[t.toNat]? ≠ some (.composite parts)) :
    Settles tags s [t] (s.skip t) := by
  have none (p : TagId) (part : IsPart tags p t) : markOf s.marks p = .closed := by
    obtain ⟨parts, found, _⟩ := isPart_iff.mp part
    exact absurd found (single parts)
  refine ⟨⟨(size_setMark _ _ _).trans sane.sized, sane.tracks.skip seen,
    sealed_setMark sane.sealed none⟩, rfl, ?_, ?_⟩
  · intro u shut
    change markOf (setMark s.marks t .closed) u = .closed
    rw [markOf_setMark_closed, shut, ite_self]
  · simp [Snapshot.skip, markOf_setMark_closed]

theorem Settles.leave {parts : List TagId} (seen : markOf s.marks t = .fresh)
    (found : tags[t.toNat]? = some (.composite parts))
    (inner : Settles tags (s.enter t) parts middle) : Settles tags s [t] (middle.leave t) := by
  have stacked : middle.stack = t :: s.stack := inner.restored
  have tracks : Tracks tags middle.marks (t :: s.stack) := stacked ▸ inner.sane.tracks
  have shut (p : TagId) (part : IsPart tags p t) : markOf middle.marks p = .closed := by
    obtain ⟨listed, here, member⟩ := isPart_iff.mp part
    cases found.symm.trans here
    exact inner.closed p member
  have popped : (middle.leave t).stack = s.stack := by rw [Snapshot.leave, stacked, List.tail_cons]
  refine ⟨⟨(size_setMark _ _ _).trans inner.sane.sized, ?_, sealed_setMark inner.sane.sealed shut⟩,
    popped, ?_, ?_⟩
  · rw [popped]
    exact tracks.leave
  · intro u early
    have carried := inner.kept u ((closed_enter_iff seen).mpr early)
    change markOf (setMark middle.marks t .closed) u = .closed
    rw [markOf_setMark_closed, carried, ite_self]
  · simp [Snapshot.leave, markOf_setMark_closed]

theorem Settles.cons {rest : List TagId} (first : Settles tags s [t] middle)
    (others : Settles tags middle rest after) : Settles tags s (t :: rest) after := by
  refine ⟨others.sane, others.restored.trans first.restored,
    fun u shut => others.kept u (first.kept u shut), ?_⟩
  rw [List.forall_mem_cons]
  exact ⟨others.kept t (first.closed t List.mem_cons_self), others.closed⟩

/-- From a closed tag only closed ones are reached. -/
theorem Sane.closed_of_reaches (sane : Sane tags s) (shut : markOf s.marks t = .closed) {u : TagId}
    (reached : ReflTransGen (IsPart tags) u t) : markOf s.marks u = .closed := by
  induction reached using ReflTransGen.head_induction_on with
  | refl => exact shut
  | head part _ ih => exact sane.sealed _ _ ih part

end Steps

namespace Visit.Sound

variable {tags : Array Tag} {depth : Nat} {s after : Snapshot} {t : TagId} {enters : Bool}

theorem of_settles (sane : Sane tags s) (due : Due tags s t) (deep : depth = s.stack.length + 1)
    (settles : Settles tags s [t] after) : Visit.Sound tags ⟨t, depth, s, enters, some after⟩ := by
  refine ⟨sane, due, deep, fun other left => ?_⟩
  cases left
  exact settles

theorem of_stopped (sane : Sane tags s) (due : Due tags s t) (deep : depth = s.stack.length + 1) :
    Visit.Sound tags ⟨t, depth, s, enters, none⟩ := by
  refine ⟨sane, due, deep, fun other left => ?_⟩
  cases left

end Visit.Sound

/-- Every visit of a run finds and leaves a sane state, however deep it is nested. -/
theorem Runs.sound {tags : Array Tag} {depth : Nat} {s : Snapshot} {todo : List TagId}
    {visits : List Visit} {result : Except (List TagId) Snapshot}
    (complete : ∀ p t, IsPart tags p t → p.toNat < tags.size)
    (run : Runs tags depth s todo visits result) (sane : Sane tags s)
    (due : ∀ t ∈ todo, Due tags s t) (deep : depth = s.stack.length + 1) :
    (∀ v ∈ visits, v.Sound tags) ∧ ∀ after, result = .ok after → Settles tags s todo after := by
  induction run with
  | done =>
    refine ⟨by simp, fun after ended => ?_⟩
    cases ended
    exact .refl sane
  | @closed depth s t rest others result seen later ih =>
    obtain ⟨here, due⟩ := List.forall_mem_cons.mp due
    have settled : Settles tags s [t] s := .of_closed sane seen
    obtain ⟨sound, settles⟩ := ih sane due deep
    refine ⟨List.forall_mem_cons.mpr ⟨.of_settles sane here deep settled, sound⟩,
      fun after ended => ?_⟩
    exact settled.cons (settles after ended)
  | @met depth s t rest seen =>
    have here := due t List.mem_cons_self
    refine ⟨List.forall_mem_cons.mpr ⟨.of_stopped sane here deep, by simp⟩, fun after ended => ?_⟩
    cases ended
  | @plain depth s t rest others result seen single later ih =>
    obtain ⟨here, due⟩ := List.forall_mem_cons.mp due
    have settled : Settles tags s [t] (s.skip t) := .skip sane seen single
    obtain ⟨sound, settles⟩ :=
      ih settled.sane (fun u member => (due u member).congr settled.restored) deep
    refine ⟨List.forall_mem_cons.mpr ⟨.of_settles sane here deep settled, sound⟩,
      fun after ended => ?_⟩
    exact settled.cons (settles after ended)
  | @stopped depth s t rest parts cycle below seen found inner ih =>
    have here := due t List.mem_cons_self
    obtain ⟨sound, _⟩ :=
      ih (sane.enter here seen) (fun p listed => here.part complete found listed)
        (congrArg (· + 1) deep)
    refine ⟨List.forall_mem_cons.mpr ⟨.of_stopped sane here deep, sound⟩, fun after ended => ?_⟩
    cases ended
  | @entered depth s middle t rest parts below others result seen found inner later
      ihInner ihLater =>
    obtain ⟨here, due⟩ := List.forall_mem_cons.mp due
    obtain ⟨soundInner, settlesInner⟩ :=
      ihInner (sane.enter here seen) (fun p listed => here.part complete found listed)
        (congrArg (· + 1) deep)
    have settled : Settles tags s [t] (middle.leave t) :=
      .leave seen found (settlesInner middle rfl)
    obtain ⟨sound, settles⟩ :=
      ihLater settled.sane (fun u member => (due u member).congr settled.restored)
        (deep.trans (congrArg (·.length + 1) settled.restored.symm))
    refine ⟨List.forall_mem_cons.mpr ⟨.of_settles sane here deep settled, fun v member => ?_⟩,
      fun after ended => ?_⟩
    · rcases List.mem_append.mp member with nested | next
      · exact soundInner v nested
      · exact sound v next
    · exact settled.cons (settles after ended)

theorem entries_cons (v : Visit) (visits : List Visit) :
    entries (v :: visits) = if v.enters then v.tag :: entries visits else entries visits := by
  unfold entries
  rw [List.filter_cons]
  split <;> rfl

theorem entries_append (first second : List Visit) :
    entries (first ++ second) = entries first ++ entries second := by
  simp [entries]

theorem fresh_of_skip {s : Snapshot} {t u : TagId} (fresh : markOf (s.skip t).marks u = .fresh) :
    markOf s.marks u = .fresh ∧ u ≠ t := by
  change markOf (setMark s.marks t .closed) u = .fresh at fresh
  rw [markOf_setMark_closed] at fresh
  by_cases same : u = t
  · simp [same] at fresh
  · exact ⟨by simpa [same] using fresh, same⟩

theorem fresh_of_enter {s : Snapshot} {t u : TagId} (seen : markOf s.marks t = .fresh)
    (fresh : markOf (s.enter t).marks u = .fresh) : markOf s.marks u = .fresh ∧ u ≠ t := by
  rw [markOf_enter seen] at fresh
  by_cases same : u = t
  · simp [same] at fresh
  · exact ⟨by simpa [same] using fresh, same⟩

/-- What a run goes through was fresh before it, is not fresh after it, and is gone through once. -/
theorem Runs.once {tags : Array Tag} {depth : Nat} {s : Snapshot} {todo : List TagId}
    {visits : List Visit} {result : Except (List TagId) Snapshot}
    (run : Runs tags depth s todo visits result) :
    (entries visits).Nodup ∧ (∀ u ∈ entries visits, markOf s.marks u = .fresh) ∧
      ∀ after, result = .ok after →
        ∀ u, markOf after.marks u = .fresh → markOf s.marks u = .fresh ∧ u ∉ entries visits := by
  induction run with
  | done =>
    refine ⟨List.nodup_nil, by simp [entries], fun after ended u fresh => ?_⟩
    cases ended
    exact ⟨fresh, by simp [entries]⟩
  | closed seen later ih => exact ih
  | met seen => exact ⟨List.nodup_nil, by simp [entries], fun after ended => by cases ended⟩
  | plain seen single later ih =>
    obtain ⟨distinct, early, late⟩ := ih
    refine ⟨distinct, fun u member => (fresh_of_skip (early u member)).1,
      fun after ended u fresh => ?_⟩
    obtain ⟨left, absent⟩ := late after ended u fresh
    exact ⟨(fresh_of_skip left).1, absent⟩
  | @stopped depth s t rest parts cycle below seen found inner ih =>
    obtain ⟨distinct, early, _⟩ := ih
    refine ⟨?_, ?_, fun after ended => by cases ended⟩
    · rw [entries_cons, if_pos rfl, List.nodup_cons]
      exact ⟨fun member => (fresh_of_enter seen (early t member)).2 rfl, distinct⟩
    · rw [entries_cons, if_pos rfl, List.forall_mem_cons]
      exact ⟨seen, fun u member => (fresh_of_enter seen (early u member)).1⟩
  | @entered depth s middle t rest parts below others result seen found inner later
      ihInner ihLater =>
    obtain ⟨distinctInner, earlyInner, lateInner⟩ := ihInner
    obtain ⟨distinct, early, late⟩ := ihLater
    -- What is still fresh when the tag is left is neither the tag nor anything met below it.
    have untouched (u : TagId) (fresh : markOf (middle.leave t).marks u = .fresh) :
        markOf s.marks u = .fresh ∧ u ≠ t ∧ u ∉ entries below := by
      obtain ⟨left, apart⟩ := fresh_of_skip (s := middle) fresh
      obtain ⟨entered, absent⟩ := lateInner middle rfl u left
      exact ⟨(fresh_of_enter seen entered).1, apart, absent⟩
    refine ⟨?_, ?_, fun after ended u fresh => ?_⟩
    · rw [entries_cons, if_pos rfl, entries_append, List.nodup_cons, List.mem_append, not_or,
        List.nodup_append']
      refine ⟨⟨?_, ?_⟩, distinctInner, distinct, ?_⟩
      · exact fun member => (fresh_of_enter seen (earlyInner t member)).2 rfl
      · exact fun member => (untouched t (early t member)).2.1 rfl
      · exact fun u first second => (untouched u (early u second)).2.2 first
    · rw [entries_cons, if_pos rfl, entries_append, List.forall_mem_cons]
      refine ⟨seen, fun u member => ?_⟩
      rcases List.mem_append.mp member with nested | next
      · exact (fresh_of_enter seen (earlyInner u nested)).1
      · exact (untouched u (early u next)).1
    · obtain ⟨left, absent⟩ := late after ended u fresh
      obtain ⟨kept, apart, unmet⟩ := untouched u left
      rw [entries_cons, if_pos rfl, entries_append, List.mem_cons, List.mem_append]
      exact ⟨kept, by simp [apart, unmet, absent]⟩

/-- There is one run, and one result of it. -/
theorem Runs.unique {tags : Array Tag} {depth : Nat} {s : Snapshot} {todo : List TagId}
    {visits others : List Visit} {result other : Except (List TagId) Snapshot}
    (first : Runs tags depth s todo visits result) (second : Runs tags depth s todo others other) :
    visits = others ∧ result = other := by
  induction first generalizing others other with
  | done =>
    cases second
    exact ⟨rfl, rfl⟩
  | closed seen _ ih =>
    cases second with
    | closed _ later =>
      obtain ⟨rfl, rfl⟩ := ih later
      exact ⟨rfl, rfl⟩
    | met again | plain again | stopped again | entered again => cases seen.symm.trans again
  | met seen =>
    cases second with
    | met => exact ⟨rfl, rfl⟩
    | closed again | plain again | stopped again | entered again => cases seen.symm.trans again
  | plain seen single _ ih =>
    cases second with
    | plain _ _ later =>
      obtain ⟨rfl, rfl⟩ := ih later
      exact ⟨rfl, rfl⟩
    | closed again | met again => cases seen.symm.trans again
    | stopped _ here | entered _ here => exact absurd here (single _)
  | stopped seen found _ ih =>
    cases second with
    | stopped _ here inner =>
      cases found.symm.trans here
      obtain ⟨rfl, same⟩ := ih inner
      cases same
      exact ⟨rfl, rfl⟩
    | entered _ here inner =>
      cases found.symm.trans here
      cases (ih inner).2
    | closed again | met again => cases seen.symm.trans again
    | plain _ single => exact absurd found (single _)
  | entered seen found _ _ ihInner ihLater =>
    cases second with
    | entered _ here inner later =>
      cases found.symm.trans here
      obtain ⟨rfl, same⟩ := ihInner inner
      cases same
      obtain ⟨rfl, rfl⟩ := ihLater later
      exact ⟨rfl, rfl⟩
    | stopped _ here inner =>
      cases found.symm.trans here
      cases (ihInner inner).2
    | closed again | met again => cases seen.symm.trans again
    | plain _ single => exact absurd found (single _)

theorem position?_of_split {s : Snapshot} {t : TagId} {inner outer : List TagId}
    (split : s.stack = inner ++ t :: outer) (absent : t ∉ outer) :
    s.position? t = some outer.length := by
  have fresh : outer.reverse.idxOf? t = none := by simpa using absent
  rw [Snapshot.position?, split, List.reverse_append, List.reverse_cons, List.append_assoc,
    List.idxOf?, List.findIdx?_append]
  rw [List.idxOf?] at fresh
  simp [fresh, List.findIdx?_cons]

theorem Tracks.exists_position {tags : Array Tag} {s : Snapshot} {t : TagId}
    (tracks : Tracks tags s.marks s.stack) (seen : markOf s.marks t = .onPath) :
    ∃ i, s.position? t = some i := by
  rw [← Option.isSome_iff_exists, Snapshot.position?, List.isSome_idxOf?]
  exact List.mem_reverse.mpr ((tracks.marked t).mp seen)

/-- On a tracked stack a tag met again is found, so the loop starts at it. -/
theorem Tracks.loop_eq_cycleAt {tags : Array Tag} {s : Snapshot} {t : TagId}
    (tracks : Tracks tags s.marks s.stack) (seen : markOf s.marks t = .onPath) :
    s.loop t = cycleAt t s.stack := by
  obtain ⟨inner, outer, split, absent⟩ := List.eq_append_cons_of_mem ((tracks.marked t).mp seen)
  have distinct : (inner ++ t :: outer).Nodup := split ▸ tracks.distinct
  have once : t ∉ outer := (List.nodup_cons.mp distinct.of_append_right).1
  rw [Snapshot.loop, position?_of_split split once, split, cycleAt_append absent]
  simp

/-- The search is a run of visits: it ends as the run does, with the same marks or the same
cycle. -/
theorem exists_runs {tags : Array Tag} (complete : ∀ p t, IsPart tags p t → p.toNat < tags.size)
    (limit : Nat) (path todo : List TagId) (marks : Array Mark) (within : freshCount marks ≤ limit)
    (sane : Sane tags ⟨marks, path⟩) (due : ∀ t ∈ todo, Due tags ⟨marks, path⟩ t) :
    ∃ visits, Runs tags (path.length + 1) ⟨marks, path⟩ todo visits
      ((close tags limit path todo marks within).map fun after => ⟨after.1, path⟩) := by
  fun_induction close tags limit path todo marks within with
  | case1 limit path marks within => exact ⟨[], .done⟩
  | case2 limit path marks within t rest seen ih =>
    obtain ⟨others, later⟩ := ih sane (List.forall_mem_cons.mp due).2
    exact ⟨_, .closed seen later⟩
  | case3 limit path marks within t rest seen =>
    have same : Snapshot.loop ⟨marks, path⟩ t = cycleAt t path := sane.tracks.loop_eq_cycleAt seen
    rw [← same]
    exact ⟨_, .met seen⟩
  | case4 limit path marks within t rest seen parts found cycle inner ih =>
    have here := due t List.mem_cons_self
    obtain ⟨below, run⟩ := ih (sane.enter here seen) fun p listed => here.part complete found listed
    rw [inner] at run
    exact ⟨_, .stopped seen found run⟩
  | case5 limit path marks within t rest seen parts found below fewer inner ihInner ihRest =>
    have here := due t List.mem_cons_self
    have partsDue : ∀ p ∈ parts, Due tags (Snapshot.enter ⟨marks, path⟩ t) p := fun p listed =>
      here.part complete found listed
    obtain ⟨nested, run⟩ := ihInner (sane.enter here seen) partsDue
    rw [inner] at run
    have settled : Settles tags (Snapshot.enter ⟨marks, path⟩ t) parts ⟨below, t :: path⟩ :=
      (run.sound complete (sane.enter here seen) partsDue rfl).2 _ rfl
    have left : Settles tags ⟨marks, path⟩ [t] ⟨setMark below t .closed, path⟩ :=
      .leave seen found settled
    obtain ⟨others, later⟩ :=
      ihRest left.sane fun u member => (due u (List.mem_cons_of_mem t member)).congr left.restored
    exact ⟨_, .entered seen found run later⟩
  | case6 limit path marks within t rest seen other ih =>
    have left : Settles tags ⟨marks, path⟩ [t] ⟨setMark marks t .closed, path⟩ :=
      .skip sane seen other
    obtain ⟨others, later⟩ :=
      ih left.sane fun u member => (due u (List.mem_cons_of_mem t member)).congr left.restored
    exact ⟨_, .plain seen other later⟩

theorem exists_below {tags : Array Tag} {path : List TagId} {t : TagId}
    (linked : (t :: path).IsChain (IsPart tags)) : ∀ u ∈ path, ∃ p, IsPart tags p u := by
  induction path generalizing t with
  | nil => simp
  | cons outer path ih => exact List.forall_mem_cons.mpr ⟨⟨t, linked.rel⟩, ih linked.tail⟩

/-- Distinct positions at which a property holds are no more than the items that have it. -/
theorem length_le_countP {α : Type} {property : α → Bool} {items : List α} {positions : List Nat}
    (distinct : positions.Nodup)
    (each : ∀ i ∈ positions, ∃ item, items[i]? = some item ∧ property item = true) :
    positions.length ≤ items.countP property := by
  have inside : positions ⊆ (items.zipIdx.filter fun e => property e.1).map Prod.snd := by
    intro i member
    obtain ⟨item, here, holds⟩ := each i member
    exact List.mem_map.mpr ⟨(item, i),
      List.mem_filter.mpr ⟨List.mem_zipIdx_iff_getElem?.mpr here, holds⟩, rfl⟩
  calc
    positions.length ≤ ((items.zipIdx.filter fun e => property e.1).map Prod.snd).length :=
      (distinct.subperm inside).length_le
    _ = items.zipIdx.countP (property ∘ Prod.fst) := by
      rw [List.length_map, List.countP_eq_length_filter]; rfl
    _ = items.countP property := by rw [← List.countP_map, List.zipIdx_map_fst]

def compositeCount (ds : List Declaration) : Nat := ds.countP fun d => d.symbol?.isNone

theorem composite_of_isPart {ds : List Declaration} {index : Std.TreeMap String TagId}
    {tags : Array Tag} {symbols : Array String} (copy : Copy ds index tags symbols) {p t : TagId}
    (part : IsPart tags p t) : ∃ d, ds[t.toNat]? = some d ∧ d.symbol?.isNone = true := by
  obtain ⟨ids, found, _⟩ := isPart_iff.mp part
  obtain ⟨d, here, resolves⟩ := copy.getElem?_of_tag found
  cases resolves with
  | composite => exact ⟨_, here, rfl⟩

/-- A tracked path holds composites only, each once. -/
theorem length_path_le {ds : List Declaration} {index : Std.TreeMap String TagId} {tags : Array Tag}
    {symbols : Array String} (copy : Copy ds index tags symbols) {path : List TagId} {t : TagId}
    (distinct : path.Nodup) (linked : (t :: path).IsChain (IsPart tags)) :
    path.length ≤ compositeCount ds := by
  rw [← List.length_map (f := TagId.toNat)]
  apply length_le_countP (distinct.map fun _ _ => TagId.toNat_inj)
  intro i member
  obtain ⟨u, inside, rfl⟩ := List.mem_map.mp member
  obtain ⟨p, part⟩ := exists_below linked u inside
  exact composite_of_isPart copy part

theorem sane_fresh (tags : Array Tag) : Sane tags (.fresh tags.size) := by
  refine ⟨by simp [Snapshot.fresh], tracks_fresh tags tags.size, fun t p shut part => ?_⟩
  obtain ⟨parts, found, _⟩ := isPart_iff.mp part
  have inside : t.toNat < tags.size := (Array.getElem?_eq_some_iff.mp found).1
  simp [Snapshot.fresh, markOf, inside] at shut

theorem due_allIds {tags : Array Tag} {t : TagId} (listed : t ∈ allIds tags.size) :
    Due tags (.fresh tags.size) t := by
  obtain ⟨i, below, rfl⟩ := List.mem_map.mp listed
  refine ⟨?_, .singleton _⟩
  have less : i < tags.size := List.mem_range.mp below
  have word : (TagId.ofNat i).toNat = i % 65536 := by simp [TagId.ofNat, TagId.toNat]
  exact word ▸ Nat.lt_of_le_of_lt (Nat.mod_le i 65536) less

theorem getElem?_of_markOf {marks : Array Mark} {t : TagId} {m : Mark}
    (inside : t.toNat < marks.size) (marked : markOf marks t = m) : marks[t.toNat]? = some m := by
  simpa [markOf, inside] using marked

end CharTable.Cycle

namespace CharTable
open Model (maxTags indexNames resolveTags)
open Relation (ReflTransGen)

variable {ds : List Declaration} {index : Std.TreeMap String TagId} {tags : Array Tag}
    {symbols : Model.Symbols}

namespace Cycle

/-- The cycle search on declarations that are numbered and resolved, cyclic or not, is one finite
run of visits. It goes through the parts of no tag twice. At every visit the tags marked as on the
path are those on the stack, each once and a part of the next, so a tag that is met again is found
on it, and no more visits are open than there are composites and one. A visit that comes back leaves
the stack as it was, and closed all that its tag reaches. -/
theorem search_visits (numbered : indexNames ds.length ds 0 ∅ = .ok index)
    (resolved : resolveTags index ds #[] .empty = .ok (tags, symbols)) :
    ∃ visits result,
      (∀ others other, Runs tags 1 (.fresh tags.size) (allIds tags.size) others other ↔
        others = visits ∧ other = result) ∧
      result.map Snapshot.marks = search tags ∧ (entries visits).Nodup ∧
      ∀ v ∈ visits, (v.tag.toNat < tags.size ∧ v.before.marks.size = tags.size) ∧
        Tracks tags v.before.marks v.before.stack ∧
        (markOf v.before.marks v.tag = .onPath → ∃ i, v.before.position? v.tag = some i) ∧
        (v.depth = v.before.stack.length + 1 ∧ v.depth ≤ compositeCount ds + 1) ∧
        ∀ after, v.after? = some after →
          after.stack = v.before.stack ∧
            ∀ u, ReflTransGen (IsPart tags) u v.tag → after.marks[u.toNat]? = some .closed := by
  have copy := copy_of_resolved numbered resolved
  have sane := sane_fresh tags
  obtain ⟨visits, run⟩ :=
    exists_runs copy.complete _ [] (allIds tags.size) _ (Nat.le_refl _) sane fun t => due_allIds
  have sound := (run.sound copy.complete sane (fun t => due_allIds) rfl).1
  refine ⟨visits, _, fun others other => ⟨fun again => again.unique run, ?_⟩, ?_, run.once.1,
    fun v member => ?_⟩
  · rintro ⟨rfl, rfl⟩
    exact run
  · rw [search]
    cases close tags _ [] (allIds tags.size) (Array.replicate tags.size .fresh)
      (Nat.le_refl _) <;> rfl
  · obtain ⟨here, due, deep, settles⟩ := sound v member
    refine ⟨⟨due.inside, here.sized⟩, here.tracks, fun met => ?_, ⟨deep, ?_⟩, fun after left => ?_⟩
    · exact here.tracks.exists_position met
    · rw [deep]
      exact Nat.succ_le_succ (length_path_le copy here.tracks.distinct due.linked)
    · have settled := settles after left
      refine ⟨settled.restored, fun u reached => ?_⟩
      have inside : u.toNat < tags.size := by
        rcases reached.cases_head with rfl | ⟨_, part, _⟩
        · exact due.inside
        · exact copy.complete _ _ part
      apply getElem?_of_markOf (settled.sane.sized.symm ▸ inside)
      exact settled.sane.closed_of_reaches (settled.closed v.tag List.mem_cons_self) reached

def loopIds : Array Tag := #[.composite [⟨1⟩], .composite [⟨3⟩, ⟨2⟩], .composite [⟨1⟩], .atomic ⟨0⟩]

theorem visits_loopTags :
    ∃ index symbols visits, indexNames loopTags.length loopTags 0 ∅ = .ok index ∧
      resolveTags index loopTags #[] .empty = .ok (loopIds, symbols) ∧
      Runs loopIds 1 (.fresh 4) (allIds 4) visits (.error [⟨1⟩, ⟨2⟩, ⟨1⟩]) ∧
      (entries visits).Nodup ∧ ∀ v ∈ visits, v.depth ≤ 4 := by
  obtain ⟨index, symbols, numbered, resolved⟩ :
      ∃ index symbols, indexNames loopTags.length loopTags 0 ∅ = .ok index ∧
      resolveTags index loopTags #[] .empty = .ok (loopIds, symbols) :=
    ⟨_, _, rfl, rfl⟩
  have stopped : search loopIds = .error [⟨1⟩, ⟨2⟩, ⟨1⟩] := by cbv
  obtain ⟨visits, result, runs, ends, once, each⟩ := search_visits numbered resolved
  have same : result = .error [⟨1⟩, ⟨2⟩, ⟨1⟩] := by
    rw [stopped] at ends
    cases result with
    | error cycle => simpa [Except.map] using ends
    | ok after => cases ends
  refine ⟨index, symbols, visits, numbered, resolved, (runs _ _).mpr ⟨rfl, same.symm⟩, once,
    fun v member => ?_⟩
  exact (each v member).2.2.2.1.2

end Cycle
end CharTable
