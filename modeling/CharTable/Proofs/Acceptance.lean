import CharTable.Proofs.Resolution

/-!
Which lists of declarations make a model. Repeated names, too many names, the first fault in
declaration order and a composite that reaches itself are refused, in this order of precedence, and
nothing else is.
-/
namespace CharTable
open Model (maxTags ofDeclarations cycleFault)
open Relation (TransGen)

def PartOf (ds : List Declaration) (part whole : String) : Prop :=
  ∃ parts, ⟨whole, .composite parts⟩ ∈ ds ∧ part ∈ parts

def nameAt (ds : List Declaration) (t : TagId) : String :=
  (ds[t.toNat]?.map Declaration.name).getD ""

namespace Copy

variable {ds : List Declaration} {index : Std.TreeMap String TagId} {tags : Array Tag}
    {symbols : Array String}

theorem tag_of_getElem? (copy : Copy ds index tags symbols) {i : Nat} {d : Declaration}
    (here : ds[i]? = some d) :
    ∃ tag, tags[i]? = some tag ∧ Resolves index symbols.toList d tag := by
  obtain ⟨tag, there, resolves⟩ := Traverse.getElem?_left copy.resolves here
  exact ⟨tag, by simpa using there, resolves⟩

theorem getElem?_of_tag (copy : Copy ds index tags symbols) {i : Nat} {tag : Tag}
    (here : tags[i]? = some tag) : ∃ d, ds[i]? = some d ∧ Resolves index symbols.toList d tag :=
  Traverse.getElem?_right copy.resolves (by simpa using here)

theorem nameAt_of_lookup (copy : Copy ds index tags symbols) {name : String} {t : TagId}
    (found : index[name]? = some t) : nameAt ds t = name := by
  obtain ⟨d, here, rfl⟩ := copy.numbers.getElem?_of_lookup found
  simp [nameAt, here]

theorem lookup_nameAt (copy : Copy ds index tags symbols) {t : TagId} {tag : Tag}
    (found : tags[t.toNat]? = some tag) : index[nameAt ds t]? = some t := by
  obtain ⟨d, here, _⟩ := copy.getElem?_of_tag found
  have named : nameAt ds t = d.name := by simp [nameAt, here]
  rw [named]
  exact copy.numbers.lookup_of_getElem? here

/-- Parts are ids of tags. -/
theorem complete (copy : Copy ds index tags symbols) (p t : TagId)
    (part : IsPart tags p t) : p.toNat < tags.size := by
  obtain ⟨ids, found, listed⟩ := isPart_iff.mp part
  obtain ⟨d, _, resolves⟩ := copy.getElem?_of_tag found
  cases resolves with
  | composite _ each =>
    obtain ⟨name, _, known⟩ := Traverse.mem_right each listed
    obtain ⟨e, here, _⟩ := copy.numbers.getElem?_of_lookup known
    obtain ⟨tag, there, _⟩ := copy.tag_of_getElem? here
    exact (Array.getElem?_eq_some_iff.mp there).1

theorem partOf_of_isPart (copy : Copy ds index tags symbols) {p t : TagId}
    (part : IsPart tags p t) : PartOf ds (nameAt ds p) (nameAt ds t) := by
  obtain ⟨ids, here, member⟩ := isPart_iff.mp part
  obtain ⟨d, there, resolves⟩ := copy.getElem?_of_tag here
  cases resolves with
  | @composite name parts _ some each =>
    obtain ⟨part, listed, found⟩ := Traverse.mem_right each member
    have named : nameAt ds t = name := by simp [nameAt, there]
    rw [PartOf, named, copy.nameAt_of_lookup found]
    exact ⟨parts, List.mem_of_getElem? there, listed⟩

/-- What is a part among the declarations is one among the tags. -/
theorem isPart_of_partOf (copy : Copy ds index tags symbols) {part whole : String} {t : TagId}
    (listed : PartOf ds part whole) (found : index[whole]? = some t) :
    ∃ p, index[part]? = some p ∧ IsPart tags p t := by
  obtain ⟨parts, declared, member⟩ := listed
  obtain ⟨tag, here, resolves⟩ := copy.tag_of_getElem? (copy.numbers.getElem?_of_mem declared found)
  cases resolves with
  | @composite _ _ ids _ each =>
    obtain ⟨p, inside, known⟩ := Traverse.mem_left each member
    exact ⟨p, known, isPart_iff.mpr ⟨ids, here, inside⟩⟩

/-- Descents among ids and among names close on themselves together. -/
theorem reaches_self_iff (copy : Copy ds index tags symbols) :
    (∃ t, TransGen (IsPart tags) t t) ↔ ∃ name, TransGen (PartOf ds) name name := by
  constructor
  · intro cyclic
    obtain ⟨t, descent⟩ := cyclic
    exact ⟨nameAt ds t, descent.lift (nameAt ds) fun _ _ => copy.partOf_of_isPart⟩
  · intro cyclic
    obtain ⟨name, descent⟩ := cyclic
    refine ⟨_, descent.lift (fun name => index[name]?.getD (.ofNat 0)) ?_⟩
    intro part whole listed
    have ⟨parts, declared, _⟩ := listed
    obtain ⟨t, found⟩ :=
      copy.numbers.lookup_of_mem (List.mem_map_of_mem (f := Declaration.name) declared)
    obtain ⟨p, known, isPart⟩ := copy.isPart_of_partOf listed found
    change IsPart tags (index[part]?.getD _) (index[whole]?.getD _)
    rwa [known, found]

end Copy

structure Model.Copies (m : Model) (ds : List Declaration) : Prop extends
    Copy ds m.index m.tags m.symbols where
  names : m.names = (ds.map Declaration.name).toArray

theorem ofDeclarations_of_firstRepeat {ds : List Declaration} {name : String}
    (first : FirstRepeat ds name) : ofDeclarations ds = .error (.duplicateTag name) := by
  rw [ofDeclarations, indexNames_of_firstRepeat ds.length first]
  rfl

theorem ofDeclarations_of_overfull {ds : List Declaration} (distinct : ¬ Repeats ds)
    (large : maxTags < ds.length) : ofDeclarations ds = .error (.tooManyTags ds.length) := by
  rw [ofDeclarations, indexNames_of_overfull ds.length (distinct_of_not_repeats distinct) large]
  rfl

theorem ofDeclarations_of_firstFault {ds : List Declaration} {fault : Fault}
    (distinct : ¬ Repeats ds) (small : ds.length ≤ maxTags) (first : FirstFault ds fault) :
    ofDeclarations ds = .error fault := by
  obtain ⟨index, numbers, numbered⟩ :=
    indexNames_of_nodup ds.length ((not_repeats_iff small).mp distinct) small
  rw [ofDeclarations, numbered]
  change (Model.resolveTags index ds #[] .empty >>= _) = _
  rw [resolveTags_fault small numbers first]
  rfl

/-- Once every declaration is resolved, the cycle search alone decides. -/
theorem ofDeclarations_searched {ds : List Declaration} (distinct : ¬ Repeats ds)
    (small : ds.length ≤ maxTags) (fine : ∀ d ∈ ds, ∀ fault, ¬ d.Faulty ds fault) :
    ∃ index tags symbols, Copy ds index tags symbols ∧
      ofDeclarations ds = if acyclic : Cycle.cycle? tags = none then
        .ok ⟨(ds.map Declaration.name).toArray, tags, symbols, index,
          Cycle.wellFounded_of_cycle? acyclic⟩
        else .error (cycleFault (ds.map Declaration.name).toArray
            ((Cycle.cycle? tags).getD [])) := by
  obtain ⟨index, numbers, numbered⟩ :=
    indexNames_of_nodup ds.length ((not_repeats_iff small).mp distinct) small
  obtain ⟨tags, symbols, copy, resolved⟩ := resolveTags_success small numbers fine
  refine ⟨index, tags, symbols.list, copy, ?_⟩
  rw [ofDeclarations, numbered]
  change (Model.resolveTags index ds #[] .empty >>= _) = _
  rw [resolved]
  rfl

/-- Declarations without any other fault are refused exactly if a name reaches itself. -/
theorem ofDeclarations_of_resolvable {ds : List Declaration} (distinct : ¬ Repeats ds)
    (small : ds.length ≤ maxTags) (fine : ∀ d ∈ ds, ∀ fault, ¬ d.Faulty ds fault) :
    ((∃ name, TransGen (PartOf ds) name name) ∧
      ∃ cycle, ofDeclarations ds = .error (cycleFault (ds.map Declaration.name).toArray cycle)) ∨
      ((¬ ∃ name, TransGen (PartOf ds) name name) ∧
        ∃ m : Model, m.Copies ds ∧ ofDeclarations ds = .ok m) := by
  obtain ⟨index, tags, symbols, copy, searched⟩ := ofDeclarations_searched distinct small fine
  by_cases acyclic : Cycle.cycle? tags = none
  · refine Or.inr ⟨?_, ⟨_, tags, symbols, index, Cycle.wellFounded_of_cycle? acyclic⟩,
      ⟨copy, rfl⟩, ?_⟩
    · rw [← copy.reaches_self_iff, not_exists]
      exact (Cycle.cycle?_eq_none_iff tags).mp acyclic
    · rw [searched, dif_pos acyclic]
  · refine Or.inl ⟨?_, _, by rw [searched, dif_neg acyclic]⟩
    rw [← copy.reaches_self_iff]
    by_contra none
    exact acyclic ((Cycle.cycle?_eq_none_iff tags).mpr (not_exists.mp none))

theorem Declaration.Faulty.ne_cyclicComposite {ds : List Declaration} {d : Declaration}
    {fault : Fault} (faulty : d.Faulty ds fault) (name : String) (path : List String) :
    fault ≠ .cyclicComposite name path := by
  intro same
  subst same
  cases faulty

/-- What keeps the declarations from being resolved is reported as such and never as a cycle. -/
theorem resolvable_or_error (ds : List Declaration) :
    (¬ Repeats ds ∧ ds.length ≤ maxTags ∧ ∀ d ∈ ds, ∀ fault, ¬ d.Faulty ds fault) ∨
      ∃ fault, ofDeclarations ds = .error fault ∧
        ∀ name path, fault ≠ .cyclicComposite name path := by
  by_cases repeated : Repeats ds
  · obtain ⟨name, first⟩ := repeated.first
    exact Or.inr ⟨_, ofDeclarations_of_firstRepeat first, by simp⟩
  by_cases large : maxTags < ds.length
  · exact Or.inr ⟨_, ofDeclarations_of_overfull repeated large, by simp⟩
  have small : ds.length ≤ maxTags := Nat.le_of_not_lt large
  by_cases faulty : ∃ d ∈ ds, ∃ fault, d.Faulty ds fault
  · obtain ⟨fault, first⟩ := firstFault_of_exists faulty
    have ⟨_, _, _, _, _, here⟩ := first
    exact Or.inr ⟨fault, ofDeclarations_of_firstFault repeated small first, here.ne_cyclicComposite⟩
  · exact Or.inl ⟨repeated, small, fun d member fault here => faulty ⟨d, member, fault, here⟩⟩

/-- Distinct names that fit the ids, composites with declared parts, and no composite that reaches
itself. -/
structure WellFormed (ds : List Declaration) : Prop where
  distinct : ¬ Repeats ds
  small : ds.length ≤ maxTags
  fine : ∀ d ∈ ds, ∀ fault, ¬ d.Faulty ds fault
  acyclic : ¬ ∃ name, TransGen (PartOf ds) name name

theorem WellFormed.eq_of_name {ds : List Declaration} (formed : WellFormed ds) {d e : Declaration}
    (first : d ∈ ds) (second : e ∈ ds) (same : d.name = e.name) : d = e :=
  List.inj_on_of_nodup_map ((not_repeats_iff formed.small).mp formed.distinct) first second same

theorem WellFormed.ofDeclarations {ds : List Declaration} (formed : WellFormed ds) :
    ∃ m : Model, m.Copies ds ∧ ofDeclarations ds = .ok m := by
  rcases ofDeclarations_of_resolvable formed.distinct formed.small formed.fine
    with ⟨cyclic, _⟩ | ⟨_, built⟩
  · exact absurd cyclic formed.acyclic
  · exact built

/-- Only well-formed declarations make a model. -/
theorem wellFormed_of_ofDeclarations {ds : List Declaration} {m : Model}
    (ok : ofDeclarations ds = .ok m) : WellFormed ds := by
  rcases resolvable_or_error ds with ⟨distinct, small, fine⟩ | ⟨fault, failed, _⟩
  · rcases ofDeclarations_of_resolvable distinct small fine with ⟨_, cycle, failed⟩ | ⟨acyclic, _⟩
    · rw [failed] at ok
      cases ok
    · exact ⟨distinct, small, fine, acyclic⟩
  · rw [failed] at ok
    cases ok

/-- A model is a numbered copy of its declarations. -/
theorem copies_of_ofDeclarations {ds : List Declaration} {m : Model}
    (ok : ofDeclarations ds = .ok m) : m.Copies ds := by
  obtain ⟨built, copies, same⟩ := (wellFormed_of_ofDeclarations ok).ofDeclarations
  rw [ok] at same
  cases same
  exact copies

/-- A model was numbered and resolved from its declarations. -/
theorem resolved_of_ofDeclarations {ds : List Declaration} {m : Model}
    (ok : ofDeclarations ds = .ok m) :
    ∃ symbols, Model.resolveTags m.index ds #[] .empty = .ok (m.tags, symbols) ∧
      m.symbols = symbols.list := by
  obtain ⟨index, _, ok⟩ := bind_eq_ok.mp ok
  obtain ⟨⟨tags, symbols⟩, resolved, ok⟩ := bind_eq_ok.mp ok
  dsimp only at ok
  split at ok
  · cases ok
    exact ⟨symbols, resolved, rfl⟩
  · cases ok

theorem symbols_ofDeclarations {ds : List Declaration} {m : Model}
    (ok : ofDeclarations ds = .ok m) : m.symbols.toList = (declaredSymbols ds).eraseDups := by
  obtain ⟨symbols, resolved, same⟩ := resolved_of_ofDeclarations ok
  rw [same]
  exact (listed_nil.resolveTags (copies_of_ofDeclarations ok).small resolved).order

theorem declared_of_mem_symbols {ds : List Declaration} {m : Model} (ok : ofDeclarations ds = .ok m)
    {s : String} (held : s ∈ m.symbols) : ∃ d ∈ ds, d.body = .atomic s := by
  rw [← Array.mem_toList_iff, symbols_ofDeclarations ok, List.mem_eraseDups, declaredSymbols,
    List.mem_filterMap] at held
  obtain ⟨d, member, has⟩ := held
  exact ⟨d, member, Declaration.symbol?_eq_some_iff.mp has⟩

theorem Declaration.Faulty.congr {ds es : List Declaration}
    (same : ∀ name, Declared ds name ↔ Declared es name) {d : Declaration} {fault : Fault}
    (faulty : d.Faulty ds fault) : d.Faulty es fault := by
  cases faulty with
  | empty => exact .empty
  | unknown known missing =>
    exact .unknown (fun earlier member => (same earlier).mp (known earlier member))
      (mt (same _).mpr missing)

/-- Whether declarations are well formed does not depend on their order. -/
theorem WellFormed.perm {ds es : List Declaration} (formed : WellFormed ds)
    (reordered : ds.Perm es) : WellFormed es := by
  have small : es.length ≤ maxTags := reordered.length_eq ▸ formed.small
  refine ⟨?_, small, ?_, ?_⟩
  · rw [not_repeats_iff small, ← (reordered.map Declaration.name).nodup_iff]
    exact (not_repeats_iff formed.small).mp formed.distinct
  · intro d member fault faulty
    exact formed.fine d (reordered.mem_iff.mpr member) fault
      (faulty.congr fun name => (reordered.map Declaration.name).mem_iff.symm)
  · intro cyclic
    obtain ⟨name, descent⟩ := cyclic
    have back : ∀ part whole, PartOf es part whole → PartOf ds part whole := by
      intro part whole listing
      obtain ⟨parts, declared, listed⟩ := listing
      exact ⟨parts, reordered.mem_iff.mpr declared, listed⟩
    exact formed.acyclic ⟨name, TransGen.mono back _ _ descent⟩

def Declaration.Ranked (ds : List Declaration) (rank : String → Nat) : Declaration → Prop
  | ⟨_, .atomic _⟩ => True
  | ⟨name, .composite parts⟩ =>
    parts ≠ [] ∧ ∀ part ∈ parts, Declared ds part ∧ rank part < rank name

instance (ds : List Declaration) (rank : String → Nat) :
    (d : Declaration) → Decidable (d.Ranked ds rank)
  | ⟨_, .atomic _⟩ => inferInstanceAs (Decidable True)
  | ⟨name, .composite parts⟩ =>
    inferInstanceAs
      (Decidable (parts ≠ [] ∧ ∀ part ∈ parts, Declared ds part ∧ rank part < rank name))

@[simp] theorem Declaration.ranked_atomic {ds : List Declaration} {rank : String → Nat}
    {name symbol : String} : (Declaration.atomic name symbol).Ranked ds rank :=
  trivial

@[simp] theorem Declaration.ranked_composite {ds : List Declaration} {rank : String → Nat}
    {name : String} {parts : List String} :
    (Declaration.composite name parts).Ranked ds rank ↔
      parts ≠ [] ∧ ∀ part ∈ parts, Declared ds part ∧ rank part < rank name :=
  Iff.rfl

/-- Ranks that fall from every composite to its parts rule out a cycle. -/
theorem WellFormed.of_ranked {ds : List Declaration} (rank : String → Nat)
    (distinct : (ds.map Declaration.name).Nodup) (small : ds.length ≤ maxTags)
    (ranked : ∀ d ∈ ds, d.Ranked ds rank) : WellFormed ds := by
  refine ⟨(not_repeats_iff small).mpr distinct, small, ?_, ?_⟩
  · intro d member
    have ranks := ranked d member
    obtain ⟨name, body⟩ := d
    cases body with
    | atomic symbol => exact fun _ => Declaration.not_faulty_atomic
    | composite parts =>
      apply Declaration.not_faulty_composite.mpr
      exact ⟨ranks.1, fun part listed => (ranks.2 part listed).1⟩
  · intro cyclic
    obtain ⟨name, descent⟩ := cyclic
    have drops : ∀ part whole, PartOf ds part whole → rank part < rank whole := by
      intro part whole listing
      obtain ⟨parts, declared, listed⟩ := listing
      exact ((ranked _ declared).2 part listed).2
    have below : TransGen (· < ·) (rank name) (rank name) := descent.lift rank drops
    rw [Relation.transGen_eq_self] at below
    exact Nat.lt_irrefl _ below

def diamond (top left right base symbol : String) : List Declaration :=
  [.composite top [left, right], .composite left [base], .composite right [base],
    .atomic base symbol]

theorem wellFormed_diamond {top left right base : String} (symbol : String)
    (distinct : [top, left, right, base].Nodup) :
    WellFormed (diamond top left right base symbol) := by
  apply WellFormed.of_ranked fun name => if name = top then 2 else if name = base then 0 else 1
  · exact distinct
  · simp [diamond, maxTags]
  · simp only [List.nodup_cons, List.mem_cons, List.not_mem_nil, or_false, not_or] at distinct
    obtain ⟨⟨topLeft, topRight, topBase⟩, ⟨_, leftBase⟩, rightBase, _⟩ := distinct
    intro d member
    simp only [diamond, List.mem_cons, List.not_mem_nil, or_false] at member
    rcases member with rfl | rfl | rfl | rfl
    · simp [diamond, Declared, Ne.symm topLeft, Ne.symm topRight, leftBase, rightBase]
    · simp [diamond, Declared, Ne.symm topLeft, Ne.symm topBase, leftBase]
    · simp [diamond, Declared, Ne.symm topRight, Ne.symm topBase, rightBase]
    · simp

/-- The outcome of building a model, in the order in which faults take precedence: the first
repeated name, too many names, the first fault of a declaration, a composite that reaches itself,
and a model exactly for well-formed lists. Acceptance does not depend on the order, and forward
references that share a part pass. -/
theorem ofDeclarations_outcome (ds : List Declaration) :
    (Repeats ds → ∃ name, FirstRepeat ds name ∧ ofDeclarations ds = .error (.duplicateTag name)) ∧
    (¬ Repeats ds → maxTags < ds.length → ofDeclarations ds = .error (.tooManyTags ds.length)) ∧
    (¬ Repeats ds → ds.length ≤ maxTags → (∃ d ∈ ds, ∃ fault, d.Faulty ds fault) →
      ∃ fault, FirstFault ds fault ∧ ofDeclarations ds = .error fault) ∧
    (¬ Repeats ds → ds.length ≤ maxTags → (∀ d ∈ ds, ∀ fault, ¬ d.Faulty ds fault) →
      (∃ name, TransGen (PartOf ds) name name) →
        ∃ name path, ofDeclarations ds = .error (.cyclicComposite name path)) ∧
    ((∃ m, ofDeclarations ds = .ok m) ↔ WellFormed ds) ∧
    (∀ es, ds.Perm es → ((∃ m, ofDeclarations ds = .ok m) ↔ ∃ m, ofDeclarations es = .ok m)) ∧
    ∀ top left right base symbol, [top, left, right, base].Nodup →
      ∃ m, ofDeclarations (diamond top left right base symbol) = .ok m := by
  have accepted (es : List Declaration) : (∃ m, ofDeclarations es = .ok m) ↔ WellFormed es := by
    constructor
    · intro built
      obtain ⟨m, ok⟩ := built
      exact wellFormed_of_ofDeclarations ok
    · intro formed
      obtain ⟨m, _, ok⟩ := formed.ofDeclarations
      exact ⟨m, ok⟩
  refine ⟨?_, ofDeclarations_of_overfull, ?_, ?_, accepted ds, ?_, ?_⟩
  · intro repeated
    obtain ⟨name, first⟩ := repeated.first
    exact ⟨name, first, ofDeclarations_of_firstRepeat first⟩
  · intro distinct small some
    obtain ⟨fault, first⟩ := firstFault_of_exists some
    exact ⟨fault, first, ofDeclarations_of_firstFault distinct small first⟩
  · intro distinct small fine cyclic
    rcases ofDeclarations_of_resolvable distinct small fine with ⟨_, cycle, failed⟩ | ⟨acyclic, _⟩
    · exact ⟨_, _, failed⟩
    · exact absurd cyclic acyclic
  · intro es reordered
    rw [accepted, accepted]
    exact ⟨fun formed => formed.perm reordered, fun formed => formed.perm reordered.symm⟩
  · intro top left right base symbol distinct
    exact (accepted _).mpr (wellFormed_diamond symbol distinct)

theorem ofDeclarations_mutual :
    ∃ name path, ofDeclarations [.composite "A" ["B"], .composite "B" ["A"]] =
      .error (.cyclicComposite name path) := by
  have small : [Declaration.composite "A" ["B"], .composite "B" ["A"]].length ≤ maxTags := by decide
  have down : PartOf [.composite "A" ["B"], .composite "B" ["A"]] "B" "A" :=
    ⟨["B"], by decide, by decide⟩
  have back : PartOf [.composite "A" ["B"], .composite "B" ["A"]] "A" "B" :=
    ⟨["A"], by decide, by decide⟩
  apply (ofDeclarations_outcome _).2.2.2.1
  · exact (not_repeats_iff small).mpr (by decide)
  · exact small
  · intro d member
    rcases List.mem_pair.mp member with rfl | rfl
    · exact Declaration.not_faulty_composite.mpr (by decide)
    · exact Declaration.not_faulty_composite.mpr (by decide)
  · exact ⟨"A", .tail (.single back) down⟩

end CharTable
