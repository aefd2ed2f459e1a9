import CharTable.Fault
import CharTable.File.Tree
import Mathlib.Data.List.Basic

/-!
Making directories in a tree. A walk that succeeds ends where its names lead, trees only grow by
directories that were missing, and where the directories of a path could be made all of them are
there.
-/
namespace CharTable.File

theorem bind_apply {σ α β : Type} (first : StateM σ α) (next : α → StateM σ β) (s : σ) :
    (first >>= next) s = next (first s).1 (first s).2 := rfl

namespace Path

theorem prefix_trim (pieces : List String) : trim pieces <+: pieces := by
  unfold trim
  split
  · exact List.prefix_rfl
  · next first rest =>
    have kept : (rest.reverse.dropWhile fun piece => piece = "" ∨
        piece = ".").reverse <+: rest := by
      have suffix :=
        List.dropWhile_suffix (l := rest.reverse) fun piece => decide (piece = "" ∨ piece = ".")
      simpa using List.reverse_prefix.mpr suffix
    split
    · split
      · exact List.nil_prefix
      · exact ⟨rest, rfl⟩
    · exact (List.prefix_cons_inj first).mpr kept

theorem prefix_parent (p : Path) : p.parent.pieces <+: p.pieces :=
  (prefix_trim _).trans ((List.dropLast_prefix _).trans (prefix_trim _))

theorem prefix_of_mem_lineage {p q : Path} (listed : q ∈ p.lineage) : q.pieces <+: p.pieces := by
  fun_induction lineage p with
  | case1 => cases listed
  | case2 p some ih =>
    rcases List.mem_cons.mp listed with rfl | outer
    · exact List.prefix_rfl
    · exact (ih outer).trans p.prefix_parent

theorem names_prefix_of_mem_lineage {p q : Path} (listed : q ∈ p.lineage) : q.names <+: p.names :=
  (prefix_of_mem_lineage listed).filter _

theorem lineage_head {p q : Path} {outer : List Path} (shape : p.lineage = q :: outer) : q = p := by
  rw [lineage] at shape
  split at shape
  · cases shape
  · exact (List.cons.inj shape).1.symm

end Path

namespace Tree

def turn (l : Location) (name : String) : Location :=
  if name = "." then l else if name = ".." then l.tail else name :: l

def reach (t : Tree) (p : Path) : Location := p.names.foldl turn t.here

structure Rooted (t : Tree) : Prop where
  here : t.entryAt? t.here = some .dir
  outer : ∀ name l e, t.entryAt? (name :: l) = some e → t.entryAt? l = some .dir

/-- A location looks as before, or it was free, is one of the sites, and a directory came in. -/
def Spares (sites : List Location) (t u : Tree) (l : Location) : Prop :=
  u.entryAt? l = t.entryAt? l ∨ t.entryAt? l = none ∧ u.entryAt? l = some .dir ∧ l ∈ sites

structure Grows (sites : List Location) (t u : Tree) : Prop where
  rooted : u.Rooted
  here : u.here = t.here
  entries : ∀ l, Spares sites t u l

/-- The path ends in an ordinary name, which is looked up at the location. -/
structure Stands (t : Tree) (p : Path) (l : Location) (last : String) : Prop where
  walked : ∃ outer, p.names = outer ++ [last] ∧ t.walk outer = .ok l
  ordinary : isDots last = false
  fits : nameFits last = true

section Walks

variable {t u : Tree} {p : Path} {l k : Location} {last : String} {sites : List Location}

theorem enter_eq_ok (rooted : t.Rooted) {name : String} (ok : t.enter l name = .ok k)
    (inside : t.entryAt? l = some .dir) : k = turn l name ∧ t.entryAt? k = some .dir := by
  unfold enter at ok
  unfold turn
  split at ok
  · next dot =>
    cases ok
    exact ⟨(if_pos dot).symm, inside⟩
  split at ok
  · next single double =>
    cases ok
    refine ⟨by rw [if_neg single, if_pos double], ?_⟩
    cases l with
    | nil => exact inside
    | cons name l => exact rooted.outer name l _ inside
  · next single double =>
    split at ok
    · cases ok
    split at ok
    · cases ok
    · next found =>
      cases ok
      exact ⟨by rw [if_neg single, if_neg double], found⟩
    · cases ok

theorem foldlM_enter_eq_ok (rooted : t.Rooted) {names : List String}
    (ok : names.foldlM t.enter l = .ok k) (inside : t.entryAt? l = some .dir) :
    k = names.foldl turn l ∧ t.entryAt? k = some .dir := by
  induction names generalizing l with
  | nil =>
    cases ok
    exact ⟨rfl, inside⟩
  | cons name names ih =>
    rw [List.foldlM_cons] at ok
    obtain ⟨next, entered, ok⟩ := bind_eq_ok.mp ok
    obtain ⟨rfl, below⟩ := enter_eq_ok rooted entered inside
    exact ih ok below

/-- A walk that succeeds ends in a directory, where the names alone lead. -/
theorem walk_eq_ok (rooted : t.Rooted) {names : List String} (ok : t.walk names = .ok k) :
    k = names.foldl turn t.here ∧ t.entryAt? k = some .dir :=
  foldlM_enter_eq_ok rooted ok rooted.here

/-- Every beginning of a path that can be walked can be walked. -/
theorem walk_of_prefix {outer names : List String} (early : outer <+: names)
    (ok : t.walk names = .ok k) : ∃ l, t.walk outer = .ok l := by
  obtain ⟨rest, rfl⟩ := early
  rw [walk, List.foldlM_append] at ok
  obtain ⟨l, walked, _⟩ := bind_eq_ok.mp ok
  exact ⟨l, walked⟩

theorem Stands.plain (stands : t.Stands p l last) : ¬ last = "." ∧ ¬ last = ".." := by
  simpa [isDots] using stands.ordinary

theorem Stands.reach_eq (stands : t.Stands p l last) (rooted : t.Rooted) :
    t.reach p = last :: l ∧ t.entryAt? l = some .dir := by
  obtain ⟨single, double⟩ := stands.plain
  obtain ⟨outer, names, walked⟩ := stands.walked
  obtain ⟨rfl, inside⟩ := walk_eq_ok rooted walked
  refine ⟨?_, inside⟩
  rw [reach, names, List.foldl_concat, turn, if_neg single, if_neg double]

/-- Once the last name is there as a directory, the whole path can be walked. -/
theorem Stands.walk_names (stands : t.Stands p l last)
    (found : t.entryAt? (last :: l) = some .dir) : t.walk p.names = .ok (last :: l) := by
  obtain ⟨single, double⟩ := stands.plain
  obtain ⟨outer, names, walked⟩ := stands.walked
  rw [walk] at walked
  rw [names, walk, List.foldlM_append, walked]
  change (t.enter l last >>= pure) = _
  simp [enter, single, double, stands.fits, found]

namespace Spares

theorem kept (spares : Spares sites t u l) {e : Entry}
    (found : t.entryAt? l = some e) : u.entryAt? l = some e := by
  rcases spares with same | ⟨missing, _⟩
  · rw [same, found]
  · rw [missing] at found
    cases found

theorem trans {v : Tree} (first : Spares sites t u l)
    (second : Spares sites u v l) : Spares sites t v l := by
  rcases second with same | ⟨missing, added, listed⟩
  · rw [Spares, same]
    exact first
  · rcases first with same | ⟨_, found, _⟩
    · exact .inr ⟨same ▸ missing, added, listed⟩
    · rw [found] at missing
      cases missing

theorem mono {more : List Location} (spares : Spares sites t u l)
    (included : sites ⊆ more) : Spares more t u l := by
  rcases spares with same | ⟨missing, added, listed⟩
  · exact .inl same
  · exact .inr ⟨missing, added, included listed⟩

end Spares

namespace Grows

theorem refl (rooted : t.Rooted) : Grows sites t t := ⟨rooted, rfl, fun _ => .inl rfl⟩

theorem trans {v : Tree} (first : Grows sites t u) (second : Grows sites u v) : Grows sites t v :=
  ⟨second.rooted, second.here.trans first.here, fun l => (first.entries l).trans (second.entries l)⟩

theorem mono {more : List Location} (grows : Grows sites t u)
    (included : sites ⊆ more) : Grows more t u :=
  ⟨grows.rooted, grows.here, fun l => (grows.entries l).mono included⟩

theorem reach_eq (grows : Grows sites t u) (p : Path) : u.reach p = t.reach p := by
  rw [reach, grows.here, reach]

theorem enter (grows : Grows sites t u) {name : String}
    (ok : t.enter l name = .ok k) : u.enter l name = .ok k := by
  unfold Tree.enter at ok ⊢
  split at ok
  · next dot => rw [if_pos dot, ok]
  split at ok
  · next single double => rw [if_neg single, if_pos double, ok]
  split at ok
  · cases ok
  · next single double fits =>
    rw [if_neg single, if_neg double, if_neg fits]
    split at ok
    · cases ok
    · next found => rw [(grows.entries _).kept found, ok]
    · cases ok

theorem walk (grows : Grows sites t u) {names : List String}
    (ok : t.walk names = .ok k) : u.walk names = .ok k := by
  rw [Tree.walk] at ok
  rw [Tree.walk, grows.here]
  generalize t.here = l at ok
  induction names generalizing l with
  | nil => exact ok
  | cons name names ih =>
    rw [List.foldlM_cons] at ok ⊢
    obtain ⟨next, entered, ok⟩ := bind_eq_ok.mp ok
    rw [grows.enter entered]
    exact ih next ok

end Grows

theorem Rooted.setEntry (rooted : t.Rooted) {e : Entry} (inside : t.entryAt? l = some .dir)
    (free : t.entryAt? (last :: l) ≠ some .dir) : (t.setEntry (last :: l) e).Rooted := by
  have changed := t.entryAt?_setEntry (last :: l) e (List.cons_ne_nil last l)
  -- A directory is not at the place that is filled, so it is there afterwards as well.
  have kept (k : Location) (dir : t.entryAt? k = some .dir) :
      (t.setEntry (last :: l) e).entryAt? k = some .dir := by
    rw [changed, if_neg]
    · exact dir
    · rintro rfl
      exact free dir
  refine ⟨kept t.here rooted.here, fun name k other found => kept k ?_⟩
  rw [changed] at found
  split at found
  · next same =>
    cases same
    exact inside
  · exact rooted.outer name k other found

end Walks

section Sites

variable {t : Tree} {p : Path} {l site : Location} {last : String}

theorem place_eq_ok (ok : t.place p = .ok (l, last)) :
    ∃ outer, p.names = outer ++ [last] ∧ t.walk outer = .ok l := by
  unfold place at ok
  split at ok
  · cases ok
  · cases ok
  · next here =>
    obtain ⟨l', walked, same⟩ := map_eq_ok.mp ok
    cases same
    exact ⟨_, (List.dropLast_append_getLast? _ here).symm, walked⟩

theorem dirSite_eq_ok (ok : t.dirSite p = .ok site) :
    ∃ l last, t.Stands p l last ∧ site = last :: l ∧ t.entryAt? site = none := by
  obtain ⟨⟨l, last⟩, placed, ok⟩ := bind_eq_ok.mp ok
  dsimp only at ok
  split at ok
  · cases ok
  split at ok
  · cases ok
  · next ordinary fits =>
    split at ok
    · cases ok
    · next free =>
      cases ok
      exact ⟨l, last, ⟨place_eq_ok placed, by simpa using ordinary, by simpa using fits⟩, rfl, free⟩

theorem fileSite_eq_ok (ok : t.fileSite p = .ok site) :
    ∃ l last, t.Stands p l last ∧ site = last :: l ∧ t.entryAt? site ≠ some .dir := by
  obtain ⟨⟨l, last⟩, placed, ok⟩ := bind_eq_ok.mp ok
  dsimp only at ok
  split at ok
  · cases ok
  split at ok
  · cases ok
  · next ordinary fits =>
    split at ok
    · cases ok
    · next free =>
      cases ok
      have plain : isDots last = false := by
        simp only [Bool.or_eq_true, not_or, Bool.not_eq_true] at ordinary
        exact ordinary.1
      exact ⟨l, last, ⟨place_eq_ok placed, plain, by simpa using fits⟩, rfl, free⟩

end Sites

section Directories

variable {t u : Tree} {p : Path} {l : Location}

theorem isDir_walk (present : t.isDir p = true) : ∃ l, t.walk p.names = .ok l := by
  unfold isDir at present
  rw [Bool.and_eq_true] at present
  cases walked : t.walk p.names with
  | ok l => exact ⟨l, rfl⟩
  | error fault => simp [walked, Except.toBool] at present

theorem change_error {e : Entry} {site : Except DiskFault Location} {fault : DiskFault}
    (failed : (t.change e site).1 = .error fault) : (t.change e site).2 = t := by
  cases site with
  | error => rfl
  | ok => cases failed

/-- Making a directory adds that one directory, or changes nothing. -/
theorem makeDir_grows (rooted : t.Rooted) (p : Path) : Grows [t.reach p] t (t.makeDir p).2 := by
  unfold makeDir
  cases sited : t.dirSite p with
  | error fault => exact .refl rooted
  | ok site =>
    obtain ⟨l, last, stands, rfl, free⟩ := dirSite_eq_ok sited
    obtain ⟨reached, inside⟩ := stands.reach_eq rooted
    refine ⟨rooted.setEntry inside (by simp [free]), rfl, fun k => ?_⟩
    change (t.setEntry (last :: l) .dir).entryAt? k = _ ∨ _ ∧
      (t.setEntry (last :: l) .dir).entryAt? k = _ ∧ _
    rw [t.entryAt?_setEntry _ _ (List.cons_ne_nil last l)]
    by_cases same : k = last :: l
    · subst same
      exact .inr ⟨free, if_pos rfl, by simp [reached]⟩
    · exact .inl (if_neg same)

theorem walk_makeDir (rooted : t.Rooted) (ok : (t.makeDir p).1 = .ok ()) :
    ∃ l, (t.makeDir p).2.walk p.names = .ok l := by
  have grows := makeDir_grows rooted p
  unfold makeDir at ok grows ⊢
  cases sited : t.dirSite p with
  | error fault =>
    rw [sited] at ok
    cases ok
  | ok site =>
    rw [sited] at grows
    obtain ⟨l, last, stands, rfl, _⟩ := dirSite_eq_ok sited
    obtain ⟨⟨outer, names, walked⟩, ordinary, fits⟩ := stands
    have again : (t.change .dir (.ok (last :: l))).2.Stands p l last :=
      ⟨⟨outer, names, grows.walk walked⟩, ordinary, fits⟩
    refine ⟨_, again.walk_names ?_⟩
    exact (t.entryAt?_setEntry _ _ (List.cons_ne_nil last l) _).trans (if_pos rfl)

/-- A directory that is not made leaves the tree as it was. -/
theorem makeDir_error {fault : DiskFault}
    (failed : (t.makeDir p).1 = .error fault) : (t.makeDir p).2 = t :=
  change_error failed

/-- A fault is forgiven where the directory is there after all. -/
theorem settle_eq (t : Tree) (p : Path) (result : Except DiskFault Unit) :
    disk.settle p result t = (match result with
    | .ok () => .ok ()
    | .error fault => if t.isDir p then .ok () else .error fault, t) := by
  cases result with
  | ok => rfl
  | error fault =>
    change (if t.isDir p then pure (.ok ()) else pure (.error fault) :
      StateM Tree (Except DiskFault Unit)) t = _
    cases t.isDir p <;> rfl

def tryDir (t : Tree) (p : Path) : Except DiskFault Unit × Tree :=
  disk.settle p (t.makeDir p).1 (t.makeDir p).2

theorem tryDir_grows (rooted : t.Rooted) (p : Path) : Grows [t.reach p] t (t.tryDir p).2 := by
  rw [tryDir, settle_eq]
  exact makeDir_grows rooted p

theorem walk_tryDir (rooted : t.Rooted) (ok : (t.tryDir p).1 = .ok ()) :
    ∃ l, (t.tryDir p).2.walk p.names = .ok l := by
  rw [tryDir, settle_eq] at ok ⊢
  dsimp only at ok ⊢
  split at ok
  · next made => exact walk_makeDir rooted made
  · split at ok
    · next present => exact isDir_walk present
    · cases ok

theorem makeDirs_cons_missing (outer : List Path) (failed : (t.makeDir p).1 = .error .missing) :
    disk.makeDirs (p :: outer) t = match disk.makeDirs outer t with
      | (.error fault, u) => (.error fault, u)
      | (.ok (), u) => u.tryDir p := by
  have tried : disk.makeDir p t = (.error .missing, t) := Prod.ext failed (makeDir_error failed)
  rw [Disk.makeDirs, bind_apply, tried]
  dsimp only
  rw [bind_apply]
  obtain ⟨result, u⟩ := disk.makeDirs outer t
  cases result <;> rfl

theorem makeDirs_cons_of_ne (outer : List Path) (other : (t.makeDir p).1 ≠ .error .missing) :
    disk.makeDirs (p :: outer) t = t.tryDir p := by
  have tried : disk.makeDir p t = t.makeDir p := rfl
  rw [Disk.makeDirs, tryDir, bind_apply, tried]
  generalize (t.makeDir p).1 = result at other
  cases result with
  | ok => rfl
  | error fault =>
    cases fault with
    | missing => exact absurd rfl other
    | _ => rfl

/-- Making directories adds at most directories, each where one of the paths leads. -/
theorem makeDirs_grows (rooted : t.Rooted) (ps : List Path) :
    Grows (ps.map t.reach) t (disk.makeDirs ps t).2 := by
  induction ps with
  | nil => exact .refl rooted
  | cons p outer ih =>
    -- Whether the outer directories were made first or not, the last step tries this one on what
    -- they left.
    have tried {u : Tree} (before : Grows (outer.map t.reach) t u) :
        Grows ((p :: outer).map t.reach) t (u.tryDir p).2 := by
      have last := tryDir_grows before.rooted p
      rw [before.reach_eq] at last
      exact (before.mono (List.subset_cons_self ..)).trans (last.mono (by simp))
    by_cases failed : (t.makeDir p).1 = .error .missing
    · rw [makeDirs_cons_missing outer failed]
      generalize disk.makeDirs outer t = rest at ih
      obtain ⟨result, u⟩ := rest
      cases result with
      | error => exact ih.mono (List.subset_cons_self ..)
      | ok => exact tried ih
    · rw [makeDirs_cons_of_ne outer failed]
      exact tried (.refl rooted)

/-- Where all directories could be made, the innermost one can be walked to. -/
theorem walk_makeDirs (rooted : t.Rooted) {outer : List Path}
    (ok : (disk.makeDirs (p :: outer) t).1 = .ok ()) :
    ∃ l, (disk.makeDirs (p :: outer) t).2.walk p.names = .ok l := by
  by_cases failed : (t.makeDir p).1 = .error .missing
  · rw [makeDirs_cons_missing outer failed] at ok ⊢
    have grows := makeDirs_grows rooted outer
    generalize disk.makeDirs outer t = rest at ok grows
    obtain ⟨result, u⟩ := rest
    cases result with
    | error => cases ok
    | ok => exact walk_tryDir grows.rooted ok
  · rw [makeDirs_cons_of_ne outer failed] at ok ⊢
    exact walk_tryDir rooted ok

/-- Where all directories on the way to a path could be made, all of them are there. -/
theorem dirs_makeDirs (rooted : t.Rooted) (ok : (disk.makeDirs p.lineage t).1 = .ok ()) :
    ∀ q ∈ p.lineage, (disk.makeDirs p.lineage t).2.entryAt? (t.reach q) = some .dir := by
  intro q listed
  have grows := makeDirs_grows rooted p.lineage
  have walked : ∃ l, (disk.makeDirs p.lineage t).2.walk p.names = .ok l := by
    cases shape : p.lineage with
    | nil =>
      rw [shape] at listed
      cases listed
    | cons first outer =>
      rw [shape] at ok
      rw [← Path.lineage_head shape]
      exact walk_makeDirs rooted ok
  obtain ⟨l, walked⟩ := walked
  obtain ⟨k, walked⟩ := walk_of_prefix (Path.names_prefix_of_mem_lineage listed) walked
  obtain ⟨rfl, inside⟩ := walk_eq_ok grows.rooted walked
  rwa [← grows.reach_eq]

end Directories

end Tree
end CharTable.File
