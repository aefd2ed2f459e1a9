import CharTable.Proofs.Encodable
import CharTable.Proofs.Meaning

/-!
What a packed table says. The flag byte of a byte joins the flags of its symbols; a bit or the class
field read back tells whether a symbol is there, so packing loses nothing.
-/
namespace CharTable.Packed
open CharTable.Flag (join classes)

def flagsIn (e : Encoding) (symbols : List String) : List Flag := symbols.filterMap e.get?

theorem flagsIn_mapped {e : Encoding} {s : String} {flag : Flag} (mapped : e.get? s = some flag)
    (symbols : List String) : flagsIn e (s :: symbols) = flag :: flagsIn e symbols :=
  List.filterMap_cons_some mapped

/-- A scan succeeds when every symbol is mapped and there is one class at most, and then joins all
flags. -/
theorem scan_eq_ok_iff {e : Encoding} {b bits f : UInt8} {found : Option (UInt8 × String)}
    {symbols : List String} :
    scan e b found bits symbols = .ok f ↔
      (∀ s ∈ symbols, ∃ flag, e.get? s = some flag) ∧
        ((found.map Prod.fst).toList ++ classes (flagsIn e symbols)).length ≤ 1 ∧
        f = (found.map Prod.fst).getD 0 ||| bits ||| join (flagsIn e symbols) := by
  induction symbols generalizing found bits with
  | nil =>
    cases found with
    | none => simp [scan, flagsIn, eq_comm]
    | some first => simp [scan, flagsIn, eq_comm]
  | cons s symbols ih =>
    rw [scan]
    cases mapped : e.get? s with
    | none => simp [mapped]
    | some flag =>
      rw [flagsIn_mapped mapped]
      cases flag with
      | bit v =>
        dsimp only
        rw [ih]
        simp [mapped, Flag.value, UInt8.or_assoc]
      | ofClass v =>
        cases found with
        | some first => simp
        | none =>
          -- The first class moves from the list into what the scan carries along.
          have swapped (rest : UInt8) : v ||| bits ||| rest = bits ||| (v ||| rest) := by
            rw [UInt8.or_comm v bits, UInt8.or_assoc]
          dsimp only
          rw [ih]
          simp [mapped, Flag.value, swapped]

variable {t : Table} {e : Encoding}

def flagsAt (t : Table) (e : Encoding) (b : UInt8) : List Flag := flagsIn e (t.sortedSymbols b)

theorem mem_flagsAt {b : UInt8} {flag : Flag} :
    flag ∈ flagsAt t e b ↔ ∃ s, t.hasSymbol b s = true ∧ e.get? s = some flag := by
  rw [flagsAt, flagsIn, List.mem_filterMap]
  simp only [Table.mem_sortedSymbols]

theorem fits_of_mem_flagsAt {b : UInt8} : ∀ flag ∈ flagsAt t e b, flag.Fits e.mask := by
  intro flag member
  obtain ⟨s, _, mapped⟩ := mem_flagsAt.mp member
  exact Encoding.fits_of_get? mapped

theorem mem_flagsAt_of_get? {b : UInt8} {s : String} {flag : Flag} (mapped : e.get? s = some flag) :
    flag ∈ flagsAt t e b ↔ t.hasSymbol b s = true := by
  rw [mem_flagsAt]
  constructor
  · intro some
    obtain ⟨u, has, other⟩ := some
    rwa [Encoding.get?_injective mapped other]
  · intro has
    exact ⟨s, has, mapped⟩

/-- A byte is packed exactly if its symbols all have flags and at most one class is among them; its
flag byte joins these flags. -/
theorem flagByte_eq_ok_iff {b f : UInt8} :
    flagByte t e b = .ok f ↔
      (∀ s, t.hasSymbol b s = true → ∃ flag, e.get? s = some flag) ∧
        (classes (flagsAt t e b)).length ≤ 1 ∧ f = join (flagsAt t e b) := by
  rw [flagByte, scan_eq_ok_iff]
  simp [flagsAt, Table.mem_sortedSymbols]

theorem mapM_bytes_eq_ok_iff {step : UInt8 → Except Fault UInt8} {p : Packed} :
    (Vector.ofFn fun i : Fin 256 => UInt8.ofNat i.val).mapM step = .ok p.flags ↔
      ∀ b, step b = .ok (p.flagsOf b) := by
  rw [Traverse.vector_mapM_eq_ok_iff]
  constructor
  · intro each b
    simpa [flagsOf] using each b.toNat b.toNat_lt
  · intro each i inside
    have reached : (UInt8.ofNat i).toNat = i := UInt8.toNat_ofNat_of_lt' inside
    have here := each (UInt8.ofNat i)
    rw [Vector.getElem_ofFn]
    simpa only [flagsOf, reached] using here

theorem ofTable_eq_ok_iff {p : Packed} :
    ofTable t e = .ok p ↔ p.mask = e.mask ∧ ∀ b, flagByte t e b = .ok (p.flagsOf b) := by
  rw [← mapM_bytes_eq_ok_iff, ofTable]
  constructor
  · intro packed
    obtain ⟨flags, ok, packed⟩ := bind_eq_ok.mp packed
    cases packed
    exact ⟨rfl, ok⟩
  · intro each
    obtain ⟨mask, ok⟩ := each
    rw [ok, ← mask]
    rfl

theorem nodup_flagsAt (legible : t.Legible) (b : UInt8) : (flagsAt t e b).Nodup := by
  apply (legible.nodup_sortedSymbols b).filterMap
  intro s u flag first second
  exact Encoding.get?_injective first second

/-- Packing succeeds when every symbol is mapped and no byte has two symbols that are mapped to
classes. -/
theorem exists_ofTable_iff (legible : t.Legible) : (∃ p, ofTable t e = .ok p) ↔
    ∀ b, (∀ s, t.hasSymbol b s = true → ∃ flag, e.get? s = some flag) ∧
      ∀ v w, Flag.ofClass v ∈ flagsAt t e b → Flag.ofClass w ∈ flagsAt t e b → v = w := by
  constructor
  · intro packs b
    obtain ⟨p, packed⟩ := packs
    obtain ⟨mapped, single, _⟩ := flagByte_eq_ok_iff.mp ((ofTable_eq_ok_iff.mp packed).2 b)
    exact ⟨mapped, (Flag.length_classes_le_one_iff (nodup_flagsAt legible b)).mp single⟩
  · intro fine
    refine ⟨⟨e.mask, Vector.ofFn fun i => join (flagsAt t e (UInt8.ofNat i.val))⟩,
      ofTable_eq_ok_iff.mpr ⟨rfl, ?_⟩⟩
    intro b
    obtain ⟨mapped, single⟩ := fine b
    apply flagByte_eq_ok_iff.mpr
    refine ⟨mapped, (Flag.length_classes_le_one_iff (nodup_flagsAt legible b)).mpr single, ?_⟩
    simp [flagsOf]

section Packed

variable {p : Packed} (packed : ofTable t e = .ok p)
include packed

theorem mask_ofTable : p.mask = e.mask := (ofTable_eq_ok_iff.mp packed).1

theorem byte_ofTable (b : UInt8) : (∀ s, t.hasSymbol b s = true → ∃ flag, e.get? s = some flag) ∧
    (classes (flagsAt t e b)).length ≤ 1 ∧ p.flagsOf b = join (flagsAt t e b) :=
  flagByte_eq_ok_iff.mp ((ofTable_eq_ok_iff.mp packed).2 b)

theorem mapped_of_hasSymbol {b : UInt8} {s : String} (has : t.hasSymbol b s = true) :
    ∃ flag, e.get? s = some flag :=
  (byte_ofTable packed b).1 s has

/-- A bit is set exactly where its symbol shows. -/
theorem test_iff {b : UInt8} {s : String} {v : UInt8} (mapped : e.get? s = some (.bit v)) :
    p.test b v = true ↔ t.hasSymbol b s = true := by
  obtain ⟨_, _, joined⟩ := byte_ofTable packed b
  have fits := Encoding.fits_of_get? mapped
  rw [test, bne_iff_ne, joined, Flag.join_and_bit_ne_zero_iff fits_of_mem_flagsAt fits,
    mem_flagsAt_of_get? mapped]

theorem classOf_eq_iff {b v : UInt8} (nonzero : v ≠ 0) :
    p.classOf b = v ↔ Flag.ofClass v ∈ flagsAt t e b := by
  obtain ⟨_, single, joined⟩ := byte_ofTable packed b
  have field : p.classOf b = (classes (flagsAt t e b)).headD 0 := by
    rw [classOf, joined, mask_ofTable packed]
    exact Flag.join_and_mask fits_of_mem_flagsAt single
  rw [field, ← Flag.mem_classes]
  cases found : classes (flagsAt t e b) with
  | nil => simp [nonzero.symm]
  | cons w rest =>
    rw [found] at single
    have alone : rest = [] := by simpa using single
    simp [alone, eq_comm]

/-- A byte has the class exactly where its symbol shows. -/
theorem classOf_iff {b : UInt8} {s : String} {v : UInt8} (mapped : e.get? s = some (.ofClass v)) :
    p.classOf b = v ↔ t.hasSymbol b s = true := by
  have nonzero : v ≠ 0 := (Encoding.fits_of_get? mapped).1
  rw [classOf_eq_iff packed nonzero, mem_flagsAt_of_get? mapped]

theorem classOf_eq_zero_iff {b : UInt8} :
    p.classOf b = 0 ↔ ∀ s v, e.get? s = some (.ofClass v) → t.hasSymbol b s = false := by
  constructor
  · intro none s v mapped
    have nonzero : v ≠ 0 := (Encoding.fits_of_get? mapped).1
    apply Bool.eq_false_iff.mpr
    intro has
    have read := (classOf_iff packed mapped).mpr has
    exact nonzero (read.symm.trans none)
  · intro none
    by_contra some
    have listed := (classOf_eq_iff packed some).mp rfl
    obtain ⟨s, has, mapped⟩ := mem_flagsAt.mp listed
    rw [none s _ mapped] at has
    cases has

theorem flagsOf_eq_zero_iff {b : UInt8} : p.flagsOf b = 0 ↔ ∀ s, t.hasSymbol b s = false := by
  obtain ⟨mapped, _, joined⟩ := byte_ofTable packed b
  rw [joined, Flag.join_eq_zero_iff]
  constructor
  · intro none s
    apply Bool.eq_false_iff.mpr
    intro has
    obtain ⟨flag, found⟩ := mapped s has
    have listed := (mem_flagsAt_of_get? found).mpr has
    exact (Encoding.fits_of_get? found).value_ne_zero (none flag listed)
  · intro none flag listed
    obtain ⟨s, has, _⟩ := mem_flagsAt.mp listed
    rw [none s] at has
    cases has

end Packed

/-- Whatever is on a byte of one table is on the bytes with the same flags of any other. -/
theorem hasSymbol_of_flagsOf_eq {t u : Table} {p q : Packed} (first : ofTable t e = .ok p)
    (second : ofTable u e = .ok q) {b c : UInt8} (same : p.flagsOf b = q.flagsOf c) {s : String}
    (has : t.hasSymbol b s = true) : u.hasSymbol c s = true := by
  obtain ⟨flag, mapped⟩ := mapped_of_hasSymbol first has
  cases flag with
  | bit v =>
    have tested := (test_iff first mapped).mpr has
    rw [test, same] at tested
    exact (test_iff second mapped).mp tested
  | ofClass v =>
    have read := (classOf_iff first mapped).mpr has
    rw [classOf, same, mask_ofTable first, ← mask_ofTable second] at read
    exact (classOf_iff second mapped).mp read

section Program

variable {ds : List Declaration} {m : Model} {rules : List Rule} {p : Packed}

/-- Every symbol that the encoding maps can be read back from the flag byte: a bit by testing it, a
class from the class field, the absence of all classes and of all symbols from zeros. Equal flags
have equal symbols. -/
theorem ofTable_lossless {mask : UInt8} {entries : List (String × Flag)}
    (accepted : Model.ofDeclarations ds = .ok m) (built : Table.ofRules m rules = .ok t)
    (encoded : Encoding.ofEntries mask entries = .ok e) (packed : ofTable t e = .ok p) :
    e.mask = mask ∧ p.mask = mask ∧
      (∀ b s v, e.get? s = some (.bit v) → (p.test b v = true ↔ t.hasSymbol b s = true)) ∧
      (∀ b s v, e.get? s = some (.ofClass v) → (p.classOf b = v ↔ t.hasSymbol b s = true)) ∧
      (∀ b, p.classOf b = 0 ↔ ∀ s v, e.get? s = some (.ofClass v) → t.hasSymbol b s = false) ∧
      (∀ b, p.flagsOf b = 0 ↔ (t.entry b).isEmpty = true) ∧
      ∀ ds' m' rules' u q, Model.ofDeclarations ds' = .ok m' → Table.ofRules m' rules' = .ok u →
        ofTable u e = .ok q → p.flags = q.flags → ∀ b s, t.hasSymbol b s = u.hasSymbol b s := by
  have legible := Table.legible_ofRules (copies_of_ofDeclarations accepted) built
  have masked := Encoding.mask_of_ofEntries encoded
  refine ⟨masked, (mask_ofTable packed).trans masked, fun _ _ _ => test_iff packed,
    fun _ _ _ => classOf_iff packed, fun _ => classOf_eq_zero_iff packed, ?_, ?_⟩
  · intro b
    rw [flagsOf_eq_zero_iff packed, legible.isEmpty_iff]
  · intro ds' m' rules' u q _ _ other same b s
    have equal : p.flagsOf b = q.flagsOf b := by
      rw [flagsOf, flagsOf]
      simp only [same]
    apply Bool.eq_iff_iff.mpr
    constructor
    · intro has
      exact hasSymbol_of_flagsOf_eq packed other equal has
    · intro has
      exact hasSymbol_of_flagsOf_eq other packed equal.symm has

end Program

section Word
open Table (wordTags wordRules exists_word)

def wordFlags : List (String × Flag) :=
  [("C_LETTER", .bit 2), ("C_DIGIT", .ofClass 16), ("C_JOINER", .bit 4)]

theorem exists_wordPacked :
    ∃ m t e p, Model.ofDeclarations wordTags = .ok m ∧ Table.ofRules m wordRules = .ok t ∧
      Encoding.ofEntries 17 wordFlags = .ok e ∧ ofTable t e = .ok p := by
  obtain ⟨m, t, accepted, built⟩ := exists_word
  obtain ⟨e, encoded, mapped⟩ :=
    Encoding.ofEntries_of_encodable (show Encoding.Encodable 17 wordFlags by decide)
  have copies := copies_of_ofDeclarations accepted
  have single (b v : UInt8) (listed : Flag.ofClass v ∈ flagsAt t e b) : v = 16 := by
    obtain ⟨s, _, found⟩ := mem_flagsAt.mp listed
    have entry := (mapped s _).mp found
    simp only [wordFlags, List.mem_cons, Prod.mk.injEq, Flag.ofClass.injEq, reduceCtorEq, and_false,
      List.not_mem_nil, or_false, false_or] at entry
    exact entry.2
  have packs : ∃ p, ofTable t e = .ok p := by
    apply (exists_ofTable_iff (Table.legible_ofRules copies built)).mpr
    intro b
    refine ⟨fun s has => ?_, fun v w first second => by rw [single b v first, single b w second]⟩
    obtain ⟨leaf, declared⟩ := Table.declared_of_hasSymbol copies built has
    simp only [mapped _ _]
    rcases Table.symbol_of_wordTags declared with rfl | rfl | rfl
    · exact ⟨.bit 2, by decide⟩
    · exact ⟨.ofClass 16, by decide⟩
    · exact ⟨.bit 4, by decide⟩
  obtain ⟨p, packed⟩ := packs
  exact ⟨m, t, e, p, accepted, built, encoded, packed⟩

theorem test_word :
    ∃ m t e p, Model.ofDeclarations wordTags = .ok m ∧ Table.ofRules m wordRules = .ok t ∧
      Encoding.ofEntries 17 wordFlags = .ok e ∧ ofTable t e = .ok p ∧ p.mask = 17 ∧
      p.test 255 4 = true := by
  obtain ⟨m, t, e, p, accepted, built, encoded, packed⟩ := exists_wordPacked
  obtain ⟨_, masked, tested, _⟩ := ofTable_lossless accepted built encoded packed
  have listed : Rule.points "JOINER" [.char '_', .code 255] ∈ wordRules := by decide
  have carried : Carries wordTags "JOINER" "C_JOINER" := ⟨"JOINER", .refl, by decide⟩
  have joiner : t.hasSymbol 255 "C_JOINER" = true :=
    Table.hasSymbol_of_names (copies_of_ofDeclarations accepted) built listed
      ⟨.code 255, by decide⟩ carried
  have mapped : e.get? "C_JOINER" = some (.bit 4) :=
    ((Encoding.encodable_of_ofEntries encoded).2 _ _).mpr (by decide)
  exact ⟨m, t, e, p, accepted, built, encoded, packed, masked, (tested 255 _ 4 mapped).mpr joiner⟩

end Word
end CharTable.Packed
