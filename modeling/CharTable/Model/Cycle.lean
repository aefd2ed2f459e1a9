import CharTable.Tag

/-!
Depth-first search for a cycle among composite tags. The search marks each tag fresh, on the path or
closed; meeting a tag that is on the path is a cycle. A search that ends without one closes every
tag, and a closed tag is well-founded: every descent through its parts ends.
-/
namespace CharTable

def partsOf (tags : Array Tag) (t : TagId) : List TagId :=
  match tags[t.toNat]? with
  | some tag => tag.parts
  | none => []

def IsPart (tags : Array Tag) (p t : TagId) : Prop := p ∈ partsOf tags t

theorem isPart_iff {tags : Array Tag} {p t : TagId} :
    IsPart tags p t ↔ ∃ parts, tags[t.toNat]? = some (.composite parts) ∧ p ∈ parts := by
  unfold IsPart partsOf
  cases tags[t.toNat]? with
  | none => simp
  | some tag =>
    cases tag with
    | atomic a => simp [Tag.parts]
    | composite parts => simp [Tag.parts]

namespace Cycle

inductive Mark where
  | fresh
  | onPath
  | closed
deriving DecidableEq, Repr

/-- Tags beyond the marked ones have no parts and count as closed. -/
def markOf (marks : Array Mark) (t : TagId) : Mark := marks[t.toNat]?.getD .closed

def setMark (marks : Array Mark) (t : TagId) (m : Mark) : Array Mark :=
  marks.setIfInBounds t.toNat m

def freshCount (marks : Array Mark) : Nat := marks.count .fresh

theorem markOf_setMark (marks : Array Mark) (t u : TagId) (m : Mark)
    (inside : t.toNat < marks.size) :
    markOf (setMark marks t m) u = if u = t then m else markOf marks u := by
  unfold markOf setMark
  rw [Array.getElem?_setIfInBounds]
  by_cases same : u = t
  · subst same; simp [inside]
  · have apart : t.toNat ≠ u.toNat := fun equal => same (TagId.toNat_inj equal.symm)
    simp [same, apart]

theorem inside_of_ne_closed {marks : Array Mark} {t : TagId} (seen : markOf marks t ≠ .closed) :
    t.toNat < marks.size := by
  unfold markOf at seen
  by_cases inside : t.toNat < marks.size
  · exact inside
  · simp [inside] at seen

theorem freshCount_setMark_lt {marks : Array Mark} {t : TagId} (seen : markOf marks t = .fresh)
    {m : Mark} (used : m ≠ .fresh) : freshCount (setMark marks t m) < freshCount marks := by
  have inside : t.toNat < marks.size := inside_of_ne_closed (by simp [seen])
  have here : marks[t.toNat] = .fresh := by simpa [markOf, inside] using seen
  have positive : 0 < marks.count .fresh :=
    Array.count_pos_iff.mpr (here ▸ Array.getElem_mem inside)
  have unused : (m == Mark.fresh) = false := beq_eq_false_iff_ne.mpr used
  simp only [freshCount, setMark, Array.setIfInBounds, inside, dite_true, Array.count_set, here,
    unused, BEq.rfl, if_true, Bool.false_eq_true, if_false]
  omega

theorem freshCount_setMark_closed_le (marks : Array Mark) (t : TagId) :
    freshCount (setMark marks t .closed) ≤ freshCount marks := by
  unfold freshCount setMark Array.setIfInBounds
  split
  · rw [Array.count_set]; simp
  · exact Nat.le_refl _

def cycleAt (t : TagId) (path : List TagId) : List TagId :=
  t :: (path.takeWhile (· ≠ t)).reverse ++ [t]

/-- Closes the tags of a list in turn. The path holds the composites being closed, innermost
first. -/
def close (tags : Array Tag) (limit : Nat) (path todo : List TagId) (marks : Array Mark)
    (within : freshCount marks ≤ limit) :
    Except (List TagId) { after : Array Mark // freshCount after ≤ limit } :=
  match todo with
  | [] => .ok ⟨marks, within⟩
  | t :: rest =>
    match seen : markOf marks t with
    | .closed => close tags limit path rest marks within
    | .onPath => .error (cycleAt t path)
    | .fresh =>
      match tags[t.toNat]? with
      | some (.composite parts) =>
        match close tags (freshCount (setMark marks t .onPath)) (t :: path) parts
            (setMark marks t .onPath) (Nat.le_refl _) with
        | .error cycle => .error cycle
        | .ok ⟨below, fewer⟩ =>
          close tags limit path rest (setMark below t .closed)
            (Nat.le_trans (freshCount_setMark_closed_le below t) (Nat.le_trans fewer
              (Nat.le_trans (Nat.le_of_lt (freshCount_setMark_lt seen (by simp))) within)))
      | _ =>
        close tags limit path rest (setMark marks t .closed)
          (Nat.le_trans (freshCount_setMark_closed_le marks t) within)
termination_by (freshCount marks, todo.length)
decreasing_by
  · exact Prod.Lex.right _ (by simp)
  · exact Prod.Lex.left _ _ (freshCount_setMark_lt seen (by simp))
  · exact Prod.Lex.left _ _ (Nat.lt_of_le_of_lt (freshCount_setMark_closed_le below t)
      (Nat.lt_of_le_of_lt fewer (freshCount_setMark_lt seen (by simp))))
  · exact Prod.Lex.left _ _ (freshCount_setMark_lt seen (by simp))

theorem markOf_setMark_closed (marks : Array Mark) (t u : TagId) :
    markOf (setMark marks t .closed) u = if u = t then .closed else markOf marks u := by
  by_cases inside : t.toNat < marks.size
  · exact markOf_setMark marks t u .closed inside
  · have same : setMark marks t .closed = marks := by simp [setMark, Array.setIfInBounds, inside]
    rw [same]
    split
    · next equal => subst equal; simp [markOf, inside]
    · rfl

def Grounded (tags : Array Tag) (marks : Array Mark) : Prop :=
  ∀ t, markOf marks t = .closed → Acc (IsPart tags) t

theorem Grounded.close_one {tags : Array Tag} {marks : Array Mark} {t : TagId}
    (grounded : Grounded tags marks) (parts : ∀ p ∈ partsOf tags t, markOf marks p = .closed) :
    Grounded tags (setMark marks t .closed) := by
  intro u done
  rw [markOf_setMark_closed] at done
  by_cases same : u = t
  · subst same
    exact Acc.intro u fun p part => grounded p (parts p part)
  · exact grounded u (by simpa [same] using done)

/-- A search that comes back has closed all it was asked for, and the parts below a closed tag come
to an end. -/
theorem close_grounded (tags : Array Tag) (limit : Nat) (path todo : List TagId)
    (marks : Array Mark) (within : freshCount marks ≤ limit)
    (after : { after : Array Mark // freshCount after ≤ limit })
    (ok : close tags limit path todo marks within = .ok after) (grounded : Grounded tags marks) :
    Grounded tags after.1 ∧ (∀ t, markOf marks t = .closed → markOf after.1 t = .closed) ∧
      ∀ t ∈ todo, markOf after.1 t = .closed := by
  fun_induction close tags limit path todo marks within with
  | case1 limit path marks within =>
    cases ok
    exact ⟨grounded, fun _ done => done, by simp⟩
  | case2 limit path marks within t rest seen ih =>
    obtain ⟨sound, kept, all⟩ := ih after ok grounded
    exact ⟨sound, kept, by simpa using ⟨kept t seen, all⟩⟩
  | case3 => cases ok
  | case4 => cases ok
  | case5 limit path marks within t rest seen parts found below fewer inner ihInner ihRest =>
    have own : partsOf tags t = parts := by simp [partsOf, found, Tag.parts]
    have entered : ∀ u, markOf (setMark marks t .onPath) u = .closed ↔ u ≠ t ∧
        markOf marks u = .closed := by
      intro u
      rw [markOf_setMark _ _ _ _ (inside_of_ne_closed (by simp [seen]))]
      by_cases same : u = t <;> simp [same]
    obtain ⟨soundInner, keptInner, allInner⟩ :=
      ihInner _ inner fun u done => grounded u ((entered u).mp done).2
    obtain ⟨sound, kept, all⟩ := ihRest after ok (soundInner.close_one (own ▸ allInner))
    have carried : ∀ u, markOf marks u = .closed → markOf after.1 u = .closed := by
      intro u done
      apply kept
      rw [markOf_setMark_closed]
      by_cases same : u = t
      · simp [same]
      · simpa [same] using keptInner u ((entered u).mpr ⟨same, done⟩)
    refine ⟨sound, carried, ?_⟩
    simp only [List.mem_cons, forall_eq_or_imp]
    exact ⟨kept t (by simp [markOf_setMark_closed]), all⟩
  | case6 limit path marks within t rest seen other ih =>
    have none : partsOf tags t = [] := by
      unfold partsOf
      split
      · next tag found => cases tag with
        | atomic => rfl
        | composite parts => exact absurd found (other parts)
      · rfl
    obtain ⟨sound, kept, all⟩ := ih after ok (grounded.close_one (by simp [none]))
    refine ⟨sound, fun u done => kept u ?_, ?_⟩
    · rw [markOf_setMark_closed]; split <;> simp [done]
    · simp only [List.mem_cons, forall_eq_or_imp]
      exact ⟨kept t (by simp [markOf_setMark_closed]), all⟩

def allIds (n : Nat) : List TagId := (List.range n).map TagId.ofNat

def search (tags : Array Tag) : Except (List TagId) (Array Mark) :=
  (close tags _ [] (allIds tags.size) (Array.replicate tags.size .fresh) (Nat.le_refl _)).map
    Subtype.val

def cycle? (tags : Array Tag) : Option (List TagId) :=
  match search tags with
  | .error cycle => some cycle
  | .ok _ => none

/-- A search that finds no cycle proves that all descents end. -/
theorem wellFounded_of_cycle? {tags : Array Tag} (acyclic : cycle? tags = none) :
    WellFounded (IsPart tags) := by
  unfold cycle? search at acyclic
  cases run : close tags _ [] (allIds tags.size) (Array.replicate tags.size .fresh)
    (Nat.le_refl _) with
  | error cycle => simp [run, Except.map] at acyclic
  | ok after =>
    have fresh : Grounded tags (Array.replicate tags.size .fresh) := by
      intro t done
      refine Acc.intro t fun p part => ?_
      have outside : ¬ t.toNat < tags.size := by
        intro inside
        simp [markOf, inside] at done
      simp [isPart_iff, outside] at part
    obtain ⟨sound, _, all⟩ := close_grounded _ _ _ _ _ _ after run fresh
    refine ⟨fun t => ?_⟩
    by_cases inside : t.toNat < tags.size
    · exact sound t (all t (List.mem_map.mpr ⟨t.toNat, by simpa using inside, by simp⟩))
    · refine Acc.intro t fun p part => ?_
      simp [isPart_iff, inside] at part

end Cycle
end CharTable
