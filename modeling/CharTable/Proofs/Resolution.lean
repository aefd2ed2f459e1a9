import CharTable.Proofs.Numbering
import CharTable.Proofs.Occurrence
import CharTable.Proofs.Search
import CharTable.Proofs.Traverse

/-!
What a built model says about its declarations: its index numbers their names, its tags resolve them
one by one, and its symbols are told apart. A declaration that cannot be resolved stops the build
with its fault.
-/
namespace CharTable
open Model (maxTags Symbols indexNames resolvePart resolveTag resolveTags)

inductive Resolves (index : Std.TreeMap String TagId)
    (symbols : List String) : Declaration → Tag → Prop
  | atomic {name symbol : String} {a : AtomId} (held : symbols[a.toNat]? = some symbol) :
      Resolves index symbols ⟨name, .atomic symbol⟩ (.atomic a)
  | composite {name : String} {parts : List String} {ids : List TagId} (some : parts ≠ [])
      (each : List.Forall₂ (fun part id => index[part]? = .some id) parts ids) :
      Resolves index symbols ⟨name, .composite parts⟩ (.composite ids)

/-- Why a declaration has no meaning among others: it has no parts, or its first undeclared part. -/
inductive Declaration.Faulty (ds : List Declaration) : Declaration → Fault → Prop
  | empty {name : String} : Faulty ds ⟨name, .composite []⟩ (.emptyComposite name)
  | unknown {name part : String} {before after : List String}
      (known : ∀ earlier ∈ before, Declared ds earlier) (missing : ¬ Declared ds part) :
      Faulty ds ⟨name, .composite (before ++ part :: after)⟩ (.unknownTag part)

theorem Resolves.grow {index : Std.TreeMap String TagId} {symbols more : List String}
    {d : Declaration} {tag : Tag} (resolves : Resolves index symbols d tag)
    (grown : symbols <+: more) : Resolves index more d tag := by
  cases resolves with
  | atomic held =>
    obtain ⟨rest, rfl⟩ := grown
    rw [← List.getElem?_append_left (List.getElem?_eq_some_iff.mp held).1] at held
    exact .atomic held
  | composite some each => exact .composite some each

structure Sound (symbols : Symbols) : Prop where
  small : symbols.list.size ≤ maxTags
  positions : Positions AtomId.toNat symbols.list.toList symbols.atomOf

theorem sound_empty : Sound .empty := ⟨Nat.zero_le _, .empty⟩

theorem intern_sound {symbols : Symbols} (sound : Sound symbols)
    (room : symbols.list.size < maxTags) (symbol : String) :
    Sound (symbols.intern symbol).2 ∧
      symbols.list.toList <+: (symbols.intern symbol).2.list.toList ∧
      (symbols.intern symbol).2.list.size ≤ symbols.list.size + 1 ∧
      (symbols.intern symbol).2.list.toList[(symbols.intern symbol).1.toNat]? = some symbol := by
  unfold Symbols.intern
  cases found : symbols.atomOf[symbol]? with
  | some atom =>
    exact ⟨sound, List.prefix_rfl, Nat.le_succ _, (sound.positions.position symbol atom).mp found⟩
  | none =>
    have fresh := sound.positions.lookup_eq_none_iff.mp found
    have next : (AtomId.ofNat symbols.list.size).toNat = symbols.list.toList.length :=
      AtomId.toNat_ofNat room
    have injective : Function.Injective AtomId.toNat := fun a b same => by
      rw [← AtomId.ofNat_toNat a, same, AtomId.ofNat_toNat]
    refine ⟨⟨by simpa using Nat.succ_le_of_lt room, ?_⟩, by simp, by simp, ?_⟩
    · simpa using sound.positions.snoc injective next fresh
    · simp [next]

theorem resolveParts_success {ds : List Declaration} {index : Std.TreeMap String TagId}
    {parts : List String} (numbers : Numbers ds index) (known : ∀ part ∈ parts, Declared ds part) :
    ∃ ids, parts.mapM (resolvePart index) = .ok ids ∧
      List.Forall₂ (fun part id => index[part]? = some id) parts ids := by
  have each : ∀ part ∈ parts, ∃ id, resolvePart index part = .ok id := by
    intro part member
    obtain ⟨id, found⟩ := numbers.lookup_of_mem (known part member)
    exact ⟨id, by simp [resolvePart, found]⟩
  obtain ⟨ids, ok⟩ := Traverse.mapM_success each
  refine ⟨ids, ok, (Traverse.forall₂_of_mapM ok).imp ?_⟩
  intro part id taken
  unfold resolvePart at taken
  cases found : index[part]? with
  | none => simp [found] at taken
  | some other => simpa [found] using taken

/-- A faulty declaration is refused with its fault. -/
theorem resolveTag_fault {ds : List Declaration} {index : Std.TreeMap String TagId}
    {symbols : Symbols} {d : Declaration} {fault : Fault} (numbers : Numbers ds index)
    (faulty : d.Faulty ds fault) : resolveTag index symbols d = .error fault := by
  cases faulty with
  | empty => rfl
  | @unknown name part before after known missing =>
    have stopped : (before ++ part :: after).mapM (resolvePart index) =
        .error (.unknownTag part) := by
      apply Traverse.mapM_fault
      · intro earlier member
        obtain ⟨id, found⟩ := numbers.lookup_of_mem (known earlier member)
        exact ⟨id, by simp [resolvePart, found]⟩
      · simp [resolvePart, numbers.lookup_eq_none_iff.mpr missing]
    simp [resolveTag, stopped]

theorem Declaration.not_faulty_atomic {ds : List Declaration}
    {name symbol : String} {fault : Fault} :
    ¬ Declaration.Faulty ds ⟨name, .atomic symbol⟩ fault := by
  intro faulty
  cases faulty

theorem Declaration.not_faulty_composite {ds : List Declaration} {name : String}
    {parts : List String} :
    (∀ fault, ¬ Declaration.Faulty ds ⟨name, .composite parts⟩ fault) ↔
      parts ≠ [] ∧ ∀ part ∈ parts, Declared ds part := by
  constructor
  · intro fine
    constructor
    · intro none
      subst none
      exact fine _ .empty
    · by_contra unknown
      have some : ∃ part ∈ parts, ¬ Declared ds part := by simpa using unknown
      obtain ⟨before, part, after, rfl, known, missing⟩ := Traverse.first_of_exists some
      exact fine _ (.unknown (by simpa using known) missing)
  · intro sound fault faulty
    obtain ⟨some, known⟩ := sound
    cases faulty with
    | empty => exact some rfl
    | @unknown _ part before after _ missing => exact missing (known part (by simp))

theorem resolveTag_success {ds : List Declaration} {index : Std.TreeMap String TagId}
    {symbols : Symbols} {d : Declaration} (numbers : Numbers ds index) (sound : Sound symbols)
    (room : symbols.list.size < maxTags) (fine : ∀ fault, ¬ d.Faulty ds fault) :
    ∃ tag after, resolveTag index symbols d = .ok (tag, after) ∧
      Resolves index after.list.toList d tag ∧ Sound after ∧
      symbols.list.toList <+: after.list.toList ∧ after.list.size ≤ symbols.list.size + 1 := by
  obtain ⟨name, body⟩ := d
  cases body with
  | atomic symbol =>
    obtain ⟨kept, grown, bounded, held⟩ := intern_sound sound room symbol
    exact ⟨_, _, rfl, .atomic held, kept, grown, bounded⟩
  | composite parts =>
    obtain ⟨some, known⟩ := Declaration.not_faulty_composite.mp fine
    obtain ⟨ids, ok, each⟩ := resolveParts_success numbers known
    refine ⟨.composite ids, symbols, ?_, .composite some each, sound,
      List.prefix_rfl, Nat.le_succ _⟩
    simp [resolveTag, some, ok]

/-- Declarations without a fault are resolved one after the other, whatever follows them. -/
theorem resolveTags_append {ds : List Declaration} {index : Std.TreeMap String TagId}
    (fresh rest : List Declaration) (tags : Array Tag) (symbols : Symbols)
    (numbers : Numbers ds index) (sound : Sound symbols)
    (room : symbols.list.size + fresh.length ≤ maxTags)
    (fine : ∀ d ∈ fresh, ∀ fault, ¬ d.Faulty ds fault) :
    ∃ news after, List.Forall₂ (Resolves index after.list.toList) fresh news ∧ Sound after ∧
      symbols.list.toList <+: after.list.toList ∧
      resolveTags index (fresh ++ rest) tags symbols =
          resolveTags index rest (tags ++ news.toArray) after := by
  induction fresh generalizing tags symbols with
  | nil => exact ⟨[], symbols, .nil, sound, List.prefix_rfl, by simp⟩
  | cons d fresh ih =>
    rw [List.length_cons] at room
    obtain ⟨tag, next, ok, resolved, kept, grown, bounded⟩ :=
      resolveTag_success numbers sound (by omega) (fine d (by simp))
    obtain ⟨news, after, others, last, grownOn, runs⟩ :=
      ih (tags.push tag) next kept (by omega) fun e member => fine e (by simp [member])
    refine ⟨tag :: news, after, .cons (resolved.grow grownOn) others, last, grown.trans grownOn, ?_⟩
    rw [List.cons_append, resolveTags, ok]
    change resolveTags index (fresh ++ rest) (tags.push tag) next = _
    rw [runs]
    simp

def FirstFault (ds : List Declaration) (fault : Fault) : Prop :=
  ∃ before d after, ds = before ++ d :: after ∧ (∀ earlier ∈ before, ∀ f, ¬ earlier.Faulty ds f) ∧
    d.Faulty ds fault

theorem firstFault_of_exists {ds : List Declaration} (some : ∃ d ∈ ds, ∃ fault, d.Faulty ds fault) :
    ∃ fault, FirstFault ds fault := by
  obtain ⟨before, d, after, split, none, fault, faulty⟩ := Traverse.first_of_exists some
  exact ⟨fault, before, d, after, split, fun earlier member f here =>
    none earlier member ⟨f, here⟩, faulty⟩

theorem resolveTags_fault {ds : List Declaration} {index : Std.TreeMap String TagId} {fault : Fault}
    (small : ds.length ≤ maxTags) (numbers : Numbers ds index) (first : FirstFault ds fault) :
    resolveTags index ds #[] .empty = .error fault := by
  obtain ⟨before, d, after, split, fine, faulty⟩ := first
  have room : Symbols.empty.list.size + before.length ≤ maxTags := by
    have total := congrArg List.length split
    rw [List.length_append, List.length_cons] at total
    simp only [Symbols.empty, List.size_toArray, List.length_nil]
    omega
  obtain ⟨news, next, _, _, _, runs⟩ :=
    resolveTags_append before (d :: after) #[] .empty numbers sound_empty room fine
  rw [← split] at runs
  rw [runs, resolveTags, resolveTag_fault numbers faulty]

def Declaration.symbol? : Declaration → Option String
  | ⟨_, .atomic symbol⟩ => some symbol
  | ⟨_, .composite _⟩ => none

theorem Declaration.symbol?_eq_some_iff {d : Declaration} {s : String} :
    d.symbol? = some s ↔ d.body = .atomic s := by
  obtain ⟨name, body⟩ := d
  cases body <;> simp [symbol?]

def declaredSymbols (ds : List Declaration) : List String := ds.filterMap Declaration.symbol?

/-- The symbols met are those of the declarations seen, in the order in which they were first
declared. -/
structure Listed (seen : List Declaration) (symbols : Symbols) : Prop where
  sound : Sound symbols
  order : symbols.list.toList = (declaredSymbols seen).eraseDups

theorem listed_nil : Listed [] .empty := ⟨sound_empty, rfl⟩

theorem Listed.size_le {seen : List Declaration} {symbols : Symbols}
    (listed : Listed seen symbols) : symbols.list.size ≤ seen.length := by
  calc
    symbols.list.size = (declaredSymbols seen).eraseDups.length := congrArg List.length listed.order
    _ ≤ (declaredSymbols seen).length := length_eraseDups_le _
    _ ≤ seen.length := List.length_filterMap_le _ _

theorem list_intern {symbols : Symbols} (sound : Sound symbols) (symbol : String) :
    (symbols.intern symbol).2.list.toList = if symbol ∈ symbols.list.toList then symbols.list.toList
        else symbols.list.toList ++ [symbol] := by
  unfold Symbols.intern
  cases found : symbols.atomOf[symbol]? with
  | some atom => simp [sound.positions.mem_of_lookup found]
  | none => simp [sound.positions.lookup_eq_none_iff.mp found]

theorem Listed.resolveTag {seen : List Declaration} {index : Std.TreeMap String TagId}
    {symbols next : Symbols} {d : Declaration} {tag : Tag} (listed : Listed seen symbols)
    (room : seen.length < maxTags) (ok : resolveTag index symbols d = .ok (tag, next)) :
    Listed (seen ++ [d]) next := by
  obtain ⟨name, body⟩ := d
  cases body with
  | atomic symbol =>
    have met : next = (symbols.intern symbol).2 := (congrArg Prod.snd (Except.ok.inj ok)).symm
    have inside : symbols.list.size < maxTags := Nat.lt_of_le_of_lt listed.size_le room
    rw [met]
    refine ⟨(intern_sound listed.sound inside symbol).1, ?_⟩
    have grown : declaredSymbols (seen ++ [⟨name, .atomic symbol⟩]) =
        declaredSymbols seen ++ [symbol] := by
      simp [declaredSymbols, Declaration.symbol?]
    rw [list_intern listed.sound, grown, eraseDups_concat, listed.order]
    simp
  | composite parts =>
    have kept : declaredSymbols (seen ++ [⟨name, .composite parts⟩]) = declaredSymbols seen := by
      simp [declaredSymbols, Declaration.symbol?]
    have same : next = symbols := by
      simp only [Model.resolveTag] at ok
      split at ok
      · cases ok
      · split at ok
        · cases ok
        · cases ok
          rfl
    rw [same]
    exact ⟨listed.sound, kept ▸ listed.order⟩

/-- Resolution lists the symbols of the declarations and no others, each where it is first
declared. -/
theorem Listed.resolveTags {seen rest : List Declaration} {index : Std.TreeMap String TagId}
    {symbols after : Symbols} {tags news : Array Tag} (listed : Listed seen symbols)
    (small : (seen ++ rest).length ≤ maxTags)
    (ok : resolveTags index rest tags symbols = .ok (news, after)) :
    Listed (seen ++ rest) after := by
  induction rest generalizing seen tags symbols with
  | nil =>
    cases ok
    rwa [List.append_nil]
  | cons d rest ih =>
    rw [Model.resolveTags] at ok
    cases resolved : Model.resolveTag index symbols d with
    | error fault =>
      rw [resolved] at ok
      cases ok
    | ok result =>
      rw [resolved] at ok
      have regroup : seen ++ d :: rest = seen ++ [d] ++ rest := by simp
      rw [regroup] at small ⊢
      refine ih (listed.resolveTag ?_ resolved) small ok
      simp only [List.length_append, List.length_singleton] at small
      omega

structure Copy (ds : List Declaration) (index : Std.TreeMap String TagId) (tags : Array Tag)
    (symbols : Array String) : Prop where
  small : ds.length ≤ maxTags
  numbers : Numbers ds index
  resolves : List.Forall₂ (Resolves index symbols.toList) ds tags.toList
  distinct : symbols.toList.Nodup

theorem resolveTags_success {ds : List Declaration} {index : Std.TreeMap String TagId}
    (small : ds.length ≤ maxTags) (numbers : Numbers ds index)
    (fine : ∀ d ∈ ds, ∀ fault, ¬ d.Faulty ds fault) :
    ∃ tags symbols, Copy ds index tags symbols.list ∧
      resolveTags index ds #[] .empty = .ok (tags, symbols) := by
  obtain ⟨news, after, each, sound, _, runs⟩ :=
    resolveTags_append ds [] #[] .empty numbers sound_empty
      (by simpa [Symbols.empty] using small) fine
  refine ⟨news.toArray, after, ⟨small, numbers, by simpa using each, sound.positions.nodup⟩, ?_⟩
  simpa [resolveTags] using runs

/-- Declarations that pass the numbering and the resolution are copied by what these return. -/
theorem copy_of_resolved {ds : List Declaration} {index : Std.TreeMap String TagId}
    {tags : Array Tag} {symbols : Symbols} (numbered : indexNames ds.length ds 0 ∅ = .ok index)
    (resolved : resolveTags index ds #[] .empty = .ok (tags, symbols)) :
    Copy ds index tags symbols.list := by
  have distinct : ¬ Repeats ds := by
    intro repeated
    obtain ⟨name, first⟩ := repeated.first
    rw [indexNames_of_firstRepeat ds.length first] at numbered
    cases numbered
  have small : ds.length ≤ maxTags := by
    by_contra large
    rw [indexNames_of_overfull ds.length (distinct_of_not_repeats distinct)
      (Nat.lt_of_not_le large)] at numbered
    cases numbered
  obtain ⟨_, numbers, same⟩ :=
    indexNames_of_nodup ds.length ((not_repeats_iff small).mp distinct) small
  cases numbered.symm.trans same
  have fine : ∀ d ∈ ds, ∀ fault, ¬ d.Faulty ds fault := by
    intro d member fault faulty
    obtain ⟨_, first⟩ := firstFault_of_exists ⟨d, member, fault, faulty⟩
    rw [resolveTags_fault small numbers first] at resolved
    cases resolved
  obtain ⟨_, _, copy, same⟩ := resolveTags_success small numbers fine
  cases resolved.symm.trans same
  exact copy

end CharTable
