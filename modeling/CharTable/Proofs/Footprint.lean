import CharTable.Generator
import CharTable.Proofs.Binary
import CharTable.Proofs.Directories
import CharTable.Proofs.Scheme

/-!
What a run of the generator leaves behind in a tree of files. Directories are only added, and only
where the path leads through; a run that succeeds replaces one file besides, and a run that fails
replaces none.
-/
namespace CharTable.File.Tree

/-- The content of one file was replaced, and besides nothing but missing directories at some
locations came in. -/
structure Replaces (sites : List Location) (target : Location) (content : List UInt8)
    (t u : Tree) : Prop where
  rooted : u.Rooted
  here : u.here = t.here
  free : t.entryAt? target ≠ some .dir
  replaced : u.entryAt? target = some (.file content)
  others : ∀ l, l ≠ target → Spares sites t u l

section Files

variable {t u v : Tree} {p : Path} {content : List UInt8} {sites : List Location}
    {target : Location}

theorem replaces_replace (rooted : t.Rooted) (ok : (t.replace p content).1 = .ok ()) :
    Replaces sites (t.reach p) content t (t.replace p content).2 := by
  unfold replace at ok ⊢
  cases sited : t.fileSite p with
  | error fault =>
    rw [sited] at ok
    cases ok
  | ok site =>
    obtain ⟨l, last, stands, rfl, free⟩ := fileSite_eq_ok sited
    obtain ⟨reached, inside⟩ := stands.reach_eq rooted
    have changed := t.entryAt?_setEntry (last :: l) (.file content) (List.cons_ne_nil last l)
    rw [reached]
    refine ⟨rooted.setEntry inside free, rfl, free, ?_, fun k other => .inl ?_⟩
    · exact (changed (last :: l)).trans (if_pos rfl)
    · exact (changed k).trans (if_neg other)

theorem Grows.replaces (grows : Grows sites t u) (replaces : Replaces sites target content u v) :
    Replaces sites target content t v where
  rooted := replaces.rooted
  here := replaces.here.trans grows.here
  free dir := replaces.free ((grows.entries target).kept dir)
  replaced := replaces.replaced
  others l other := (grows.entries l).trans (replaces.others l other)

theorem Replaces.kept (replaces : Replaces sites target content t u) {l : Location}
    (dir : t.entryAt? l = some .dir) : u.entryAt? l = some .dir := by
  have other : l ≠ target := by
    rintro rfl
    exact replaces.free dir
  exact (replaces.others l other).kept dir

end Files
end CharTable.File.Tree

namespace CharTable.Generator
open File

inductive Delivers (table : Table) (extension? : Option String) : List UInt8 → Prop where
  | printed (named : extension? = none ∨ extension? = some "inc" ∨ extension? = some "h") :
      Delivers table extension? (Utf8.encode table.render)
  | document {packed : Packed} (named : extension? = some "json")
      (ok : Scheme.pack table = .ok packed) :
      Delivers table extension? (Packed.Document.write packed)
  | binary {packed : Packed} (named : extension? = some "bin")
      (ok : Scheme.pack table = .ok packed) : Delivers table extension? (Packed.Binary.write packed)

namespace Delivers

variable {table : Table} {extension? : Option String} {content : List UInt8}

theorem of_content {form : Form} (chosen : Form.ofExtension? extension? = some form)
    (ok : form.content table = .ok content) : Delivers table extension? content := by
  unfold Form.ofExtension? at chosen
  split at chosen
  · cases chosen
    exact Except.ok.inj ok ▸ .printed (.inl rfl)
  split at chosen
  · next named =>
    cases chosen
    exact Except.ok.inj ok ▸ .printed (.inr (named.imp (congrArg some) (congrArg some)))
  split at chosen
  · next named =>
    cases chosen
    obtain ⟨packed, packs, rfl⟩ :=
      map_eq_ok.mp (show (Scheme.pack table).map _ = .ok content from ok)
    exact .document (congrArg some named) packs
  split at chosen
  · next named =>
    cases chosen
    obtain ⟨packed, packs, rfl⟩ :=
      map_eq_ok.mp (show (Scheme.pack table).map _ = .ok content from ok)
    exact .binary (congrArg some named) packs
  · cases chosen

theorem exists_form (delivers : Delivers table extension? content) :
    ∃ form, Form.ofExtension? extension? = some form ∧ form.content table = .ok content := by
  cases delivers with
  | printed named =>
    refine ⟨.printed, ?_, rfl⟩
    rcases named with rfl | rfl | rfl <;> rfl
  | document named packs => exact ⟨.document, named ▸ rfl, congrArg (Except.map _) packs⟩
  | binary named packs => exact ⟨.binary, named ▸ rfl, congrArg (Except.map _) packs⟩

theorem length_binary (delivers : Delivers table (some "bin") content) : content.length = 268 := by
  cases delivers with
  | printed named => exact absurd named (by decide)
  | document named => exact absurd named (by decide)
  | binary => exact Packed.Binary.length_write _

end Delivers

def sites (t : Tree) (p : Path) : List Location := p.parent.lineage.map t.reach

section Run

variable {t : Tree}

theorem store_eq (table : Table) (p : Path) (t : Tree) : store Tree.disk table p t =
    match Tree.disk.makeDirs p.parent.lineage t with
    | (.error fault, u) => (.error (.directory p.parent fault), u)
    | (.ok (), u) => match Form.ofExtension? p.extension? with
      | none => (.error (.extension (p.extension?.getD "")), u)
      | some form => match form.content table with
        | .error fault => (.error (.stage fault), u)
        | .ok content =>
          ((u.replace p content).1.mapError (.file form p), (u.replace p content).2) := by
  rw [store, bind_apply]
  obtain ⟨result, u⟩ := Tree.disk.makeDirs p.parent.lineage t
  cases result with
  | error => rfl
  | ok =>
    dsimp only
    cases Form.ofExtension? p.extension? with
    | none => rfl
    | some form =>
      dsimp only
      cases form.content table <;> rfl

/-- A table is stored in the form for the extension of the path. Otherwise there are at most more
directories. -/
theorem store_effect (rooted : t.Rooted) (table : Table) (p : Path) :
    (∃ u content, store Tree.disk table p t = (.ok (), u) ∧ Delivers table p.extension? content ∧
      Tree.Replaces (sites t p) (t.reach p) content t u ∧
      ∀ l ∈ sites t p, u.entryAt? l = some .dir) ∨
      ∃ u f, store Tree.disk table p t = (.error f, u) ∧ Tree.Grows (sites t p) t u := by
  rw [store_eq]
  -- The file is touched last, when its content is known, so each earlier failure leaves the
  -- directories alone.
  have grows := Tree.makeDirs_grows rooted p.parent.lineage
  have made := Tree.dirs_makeDirs (p := p.parent) rooted
  generalize Tree.disk.makeDirs p.parent.lineage t = rest at grows made
  obtain ⟨result, u⟩ := rest
  cases result with
  | error fault => exact .inr ⟨u, _, rfl, grows⟩
  | ok =>
    dsimp only at grows made ⊢
    cases chosen : Form.ofExtension? p.extension? with
    | none => exact .inr ⟨u, _, rfl, grows⟩
    | some form =>
      dsimp only
      cases ok : form.content table with
      | error fault => exact .inr ⟨u, _, rfl, grows⟩
      | ok content =>
        dsimp only
        cases done : (u.replace p content).1 with
        | error fault =>
          refine .inr ⟨_, _, rfl, ?_⟩
          rwa [Tree.replace, Tree.change_error done]
        | ok =>
          have replaces : Tree.Replaces (sites t p) (u.reach p) content u _ :=
            Tree.replaces_replace grows.rooted done
          rw [grows.reach_eq] at replaces
          refine .inl ⟨_, content, rfl, .of_content chosen ok, grows.replaces replaces, ?_⟩
          intro l listed
          obtain ⟨q, outer, rfl⟩ := List.mem_map.mp listed
          exact replaces.kept (made rfl q outer)

theorem run_eq (path : String) (rest : List String) (t : Tree) : run Tree.disk (path :: rest) t =
    match Scheme.table with
    | .error fault => (failed (.stage fault), t)
    | .ok table => match store Tree.disk table (Path.ofText path) t with
      | (.error f, u) => (failed f, u)
      | (.ok (), u) =>
        (⟨0, "", announcement ++ "[gen_char_tab] wrote " ++ (Path.ofText path).text ++ "\n"⟩,
            u) := by
  unfold run
  cases Scheme.table with
  | error => rfl
  | ok table =>
    dsimp only
    rw [bind_apply]
    obtain ⟨result, u⟩ := store Tree.disk table (Path.ofText path) t
    cases result <;> rfl

/-- A run that succeeds replaces the file that its path leads to by the table in the form for the
extension, makes the directories on the way that are missing, and leaves all else as it is. A run
that fails makes at most such directories. -/
theorem run_footprint (rooted : t.Rooted) (path : String) (rest : List String) :
    ∃ outcome u, run Tree.disk (path :: rest) t = (outcome, u) ∧
      ((outcome.code = 0 ∧ ∃ table content, Scheme.table = .ok table ∧
          Delivers table (Path.ofText path).extension? content ∧
          ((Path.ofText path).extension? = some "bin" → content.length = 268) ∧
          Tree.Replaces (sites t (Path.ofText path)) (t.reach (Path.ofText path)) content t u ∧
          ∀ l ∈ sites t (Path.ofText path), u.entryAt? l = some .dir) ∨
        outcome.code = 1 ∧ Tree.Grows (sites t (Path.ofText path)) t u) := by
  rw [run_eq]
  cases built : Scheme.table with
  | error fault => exact ⟨_, t, rfl, .inr ⟨rfl, .refl rooted⟩⟩
  | ok table =>
    dsimp only
    obtain ⟨u, content, ran, delivers, replaces, made⟩ | ⟨u, f, ran, grows⟩ :=
      store_effect rooted table (Path.ofText path)
    · rw [ran]
      refine ⟨_, u, rfl, .inl ⟨rfl, table, content, rfl, delivers, fun named => ?_, replaces, made⟩⟩
      rw [named] at delivers
      exact delivers.length_binary
    · rw [ran]
      exact ⟨_, u, rfl, .inr ⟨rfl, grows⟩⟩

end Run

def shelf : Tree := Tree.empty.setEntry ["chars.inc", "here"] (.file [1, 2, 3])

theorem rooted_shelf : shelf.Rooted := by
  refine Tree.Rooted.setEntry ⟨rfl, fun name l e found => ?_⟩ rfl (by decide)
  cases l with
  | nil => rfl
  | cons outer l => simp [Tree.entryAt?, Tree.empty] at found

theorem lineage_shelf :
    (Path.ofText "sub/../chars.inc").parent.lineage = [⟨["sub", ".."]⟩, ⟨["sub"]⟩] := by
  cbv

theorem store_shelf (table : Table) :
    ∃ u, store Tree.disk table (Path.ofText "sub/../chars.inc") shelf = (.ok (), u) := by
  have made : Tree.disk.makeDirs [⟨["sub", ".."]⟩, ⟨["sub"]⟩] shelf =
      (.ok (), shelf.setEntry ["sub", "here"] .dir) :=
    rfl
  rw [store_eq, lineage_shelf, made]
  exact ⟨_, rfl⟩

/-- The old file is replaced through a directory that was missing; an extension that is unknown
leaves the old file. -/
theorem run_shelf :
    shelf.Rooted ∧
      (∃ outcome u table, run Tree.disk ["sub/../chars.inc"] shelf = (outcome, u) ∧
        outcome.code = 0 ∧ Scheme.table = .ok table ∧
        u.entryAt? ["chars.inc", "here"] = some (.file (Utf8.encode table.render)) ∧
        shelf.entryAt? ["sub", "here"] = none ∧ u.entryAt? ["sub", "here"] = some .dir) ∧
      ∃ outcome u, run Tree.disk ["sub/chars.xyz"] shelf = (outcome, u) ∧ outcome.code = 1 ∧
        u.entryAt? ["chars.inc", "here"] = some (.file [1, 2, 3]) := by
  refine ⟨rooted_shelf, ?_, ?_⟩
  · obtain ⟨outcome, u, ran, effect⟩ := run_footprint rooted_shelf "sub/../chars.inc" []
    rcases effect with ⟨code, table, content, built, delivers, _, replaces, made⟩ | ⟨code, _⟩
    · obtain ⟨form, chosen, ok⟩ := delivers.exists_form
      have printed : Form.printed = form := Option.some.inj chosen
      rw [← printed] at ok
      have file : u.entryAt? ["chars.inc", "here"] = some (.file content) := replaces.replaced
      refine ⟨outcome, u, table, ran, code, built, Except.ok.inj ok ▸ file, rfl, made _ ?_⟩
      rw [sites, lineage_shelf]
      exact List.mem_cons_of_mem _ (List.mem_singleton_self _)
    · obtain ⟨table, _, built, _⟩ := Scheme.exists_packed
      obtain ⟨v, stored⟩ := store_shelf table
      rw [run_eq, built] at ran
      dsimp only at ran
      rw [stored] at ran
      cases ran
      cases code
  · obtain ⟨outcome, u, ran, effect⟩ := run_footprint rooted_shelf "sub/chars.xyz" []
    rcases effect with ⟨_, _, _, _, delivers, _⟩ | ⟨code, grows⟩
    · obtain ⟨form, chosen, _⟩ := delivers.exists_form
      have unknown : Form.ofExtension? (Path.ofText "sub/chars.xyz").extension? = none := by decide
      cases unknown.symm.trans chosen
    · exact ⟨outcome, u, ran, code, (grows.entries _).kept rfl⟩

end CharTable.Generator
