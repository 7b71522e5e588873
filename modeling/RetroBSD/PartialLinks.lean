import RetroBSD.LinkAccepts

/-!
# Partial links

A list of files is linked at once, and by way of the file that `ld -r -T0` makes of it. Both
give one executable if and only if no common has a size, every word commutes with being moved
twice, and what is read as the records of the padding leaves the padding alone.
-/

namespace LinkEditor

open ObjectFiles List Option
open Assembler (Reloc fgetrel fputrel)

/-! ### The link of the output -/

section

variable {b : ℕ} {p : Pass1} {symtab : List Nlist} {out : Output}

def again (b : ℕ) (p : Pass1) (symtab : List Nlist) (out : Output) : Link :=
  assign b false (p.again (out.syms.length + 1)) (symtab.map uncommon) 0

def moduleAgain (b : ℕ) (p : Pass1) (symtab : List Nlist) (out : Output) : Module :=
  moduleOf (again b p symtab out) (outputR (middleR 0 p) out)
    (references out.syms.length 0 (middleR 0 p).symtab)

lemma output_text (measured : Measured ⟨0, 0, 0, 0, []⟩ p out) :
    (outputR (middleR 0 p) out).a_text = p.aligned := by
  apply padText_length _ rfl
  rw [length_map, measured.text, Nat.zero_add]

lemma output_data (measured : Measured ⟨0, 0, 0, 0, []⟩ p out) :
    (outputR (middleR 0 p) out).a_data = p.dsize := by
  rw [Object.a_data, outputR, length_map, measured.data, Nat.zero_add]

lemma sub_same (a c : ℕ) : sub (a + c) c = a % WORDS := by
  rw [sub]
  simp only [WORDS]
  omega

/-- All segments of the output move by the base address. -/
lemma again_displacements (b : ℕ) (symtab : List Nlist)
    (measured : Measured ⟨0, 0, 0, 0, []⟩ p out) (t : List (ℕ × ℕ)) :
    let m := moduleOf (again b p symtab out) (outputR (middleR 0 p) out) t
    m.ctrel = b % WORDS ∧ m.cdrel = b % WORDS ∧ m.cbrel = b % WORDS := by
  have aligned : ((p.again (out.syms.length + 1)).tsize + 15) / 16 * 16 = p.aligned :=
    aligned_again p _
  refine ⟨rfl, ?_, ?_⟩
  · simp [moduleOf, again, assign, aligned, output_text measured, sub_same]
  · simp only [moduleOf, again, assign, aligned, output_text measured, output_data measured,
      Nat.add_zero, Nat.add_assoc]
    exact sub_same _ _

lemma shifted_stored {r l : Nlist} (known : Known r.n_type) (shifted : Shifted b r l)
    (defined : r.n_type ≠ extern_ .undf) {x y z : ℕ} (text : x = b % WORDS) (data : y = b % WORDS)
    (bss : z = b % WORDS) : undefined r.n_type = false ∧ l.n_type = r.n_type ∧
      l.n_value = (symreloc x y z (stored r)).n_value := by
  obtain ⟨-, -, undf | ⟨plain, type, value⟩⟩ := shifted
  · exact absurd undf defined
  · refine ⟨plain, type.symm, ?_⟩
    rw [value, ← type]
    obtain ⟨name, type, value⟩ := r
    subst text data bss
    rcases known with rfl | rfl | rfl | rfl | rfl | rfl
    · cases plain
    all_goals simp [extern_, reltype, shift, symreloc, stored, Nat.add_mod_mod]
    cases plain

lemma keys_again (sound : Sound p.symtab) (done : define p = some symtab) :
    keys (again b p symtab out).symtab = keys p.symtab := by
  rw [again, again_symtab sound done, keys_map _ (settle_name _ _ _ _), keys_define done]

lemma known_middleR (sound : Sound p.symtab) {i : ℕ} {s : Nlist}
    (entry : (middleR 0 p).symtab[i]? = some s) : Known s.n_type := by
  rw [middleR_symtab, getElem?_map] at entry
  obtain ⟨t, old, rfl⟩ := map_eq_some_iff.mp entry
  exact settle_known (sound.known t (mem_of_getElem? old)) _ _ _ _

section

variable (sound : Sound p.symtab) (measured : Measured ⟨0, 0, 0, 0, []⟩ p out)
  (done : define p = some symtab) (all : ∀ s ∈ symtab, s.n_type ≠ extern_ .undf)
include sound measured done all

/-- The symbols of the output are found as those of the table. -/
lemma again_placed (t : List (ℕ × ℕ)) {i : ℕ} {s : Nlist} (entry : (middleR 0 p).symtab[i]? = some s) :
    Placed (moduleOf (again b p symtab out) (outputR (middleR 0 p) out) t) i s := by
  have known := known_middleR sound entry
  refine ⟨?_, known, ?_⟩
  · have key : (keys p.symtab)[i]? = some (cstring s.n_name) := by
      rw [← keys_middleR, keys, getElem?_map, entry]
      rfl
    have search := ProbeTables.lookup_fresh (fun k => isPrefixOf_iff_prefix.mpr (prefix_refl k))
      sound.fresh key
    rw [lookup, moduleOf, keys_again sound done, search]
  · by_cases undf : s.n_type = extern_ .undf
    · exact .inl undf
    · right
      obtain ⟨ctrel, cdrel, cbrel⟩ := again_displacements b symtab measured t
      obtain ⟨l, new, shifted, -⟩ := shifted_symtab sound done all _ entry
      obtain ⟨plain, type, value⟩ := shifted_stored known shifted undf ctrel cdrel cbrel
      exact ⟨plain, l, new, type, value⟩

/-- The output refers to the symbols that `ld` defines, and to no others. -/
lemma locals_again : ∃ syms, locals (again b p symtab out) (outputR (middleR 0 p) out) =
      some (references out.syms.length 0 (middleR 0 p).symtab, syms) := by
  have plain : ∀ s ∈ out.syms.map stored, s.n_type.ext = false := by
    intro s inside
    obtain ⟨t, old, rfl⟩ := mem_map.mp inside
    exact measured.plain t old
  obtain ⟨syms, first⟩ := load2syms_plain (m := moduleOf _ _ []) plain _
  have few : (references out.syms.length 0 (middleR 0 p).symtab).length ≤ (specials p).length := by
    apply references_length
    intro i s entry undf
    by_contra outside
    obtain ⟨-, -, -, other⟩ := shifted_symtab (b := b) sound done all 0 entry
    exact other outside undf
  have room : ([] : List (ℕ × ℕ)).length +
      (references out.syms.length 0 (middleR 0 p).symtab).length ≤ NSYMPR := by
    have four := specials_length p
    simp only [length_nil, NSYMPR]
    omega
  have second := load2syms_placed (fun j s entry => by
    rw [Nat.zero_add]
    exact again_placed (b := b) sound measured done all [] entry) room syms
  refine ⟨syms, ?_⟩
  have split : (outputR (middleR 0 p) out).syms =
      out.syms.map stored ++ (middleR 0 p).symtab.map stored := map_append
  rw [locals, split, foldlM_append, first]
  simp only [length_map, Nat.zero_add, Nat.add_zero] at second ⊢
  change Option.map Prod.snd (List.foldlM _ _ _) = _
  rw [second]
  rfl

end

/-! ### The words of the output -/

/-- What is read behind the records of the text. -/
def behind (p : Pass1) (out : Output) : List UInt8 :=
  List.replicate (whole ((out.text.map Prod.snd).flatMap fputrel).length -
    ((out.text.map Prod.snd).flatMap fputrel).length) 0 ++
      ((outputR (middleR 0 p) out).reldata ++ (outputR (middleR 0 p) out).symbols)

def padding (p : Pass1) (out : Output) : ℕ := (p.aligned - W * out.text.length) / W

/-- The words of the padding, in the second link. -/
def paddingAgain (b : ℕ) (p : Pass1) (symtab : List Nlist) (out : Output) : Option (List ℕ) :=
  (relocate (moduleAgain b p symtab out) (List.replicate (padding p out) 0) (behind p out)
    (b + W * out.text.length)).map (·.map Prod.fst)

lemma output_file (p : Pass1) (out : Output) :
    (outputR (middleR 0 p) out).reltext ++ (outputR (middleR 0 p) out).reldata ++
      (outputR (middleR 0 p) out).symbols = (out.text.map Prod.snd).flatMap fputrel ++ behind p out := by
  rw [behind, append_assoc, ← append_assoc ((out.text.map Prod.snd).flatMap fputrel)]
  rfl

lemma output_words (p : Pass1) (out : Output) : (outputR (middleR 0 p) out).text =
    out.text.map Prod.fst ++ List.replicate (padding p out) 0 := by
  have tsize : (middleR 0 p).tsize = p.aligned := rfl
  simp [outputR, padText, padding, tsize]

lemma text_again (b : ℕ) (p : Pass1) (symtab : List Nlist) (out : Output) :
    (relocate (moduleAgain b p symtab out) (outputR (middleR 0 p) out).text
        ((outputR (middleR 0 p) out).reltext ++ (outputR (middleR 0 p) out).reldata ++
          (outputR (middleR 0 p) out).symbols) b).map (·.map Prod.fst) =
      (moveAll (moduleAgain b p symtab out) (out.text.map reread) b).bind fun text =>
        (paddingAgain b p symtab out).map fun fill => text ++ fill := by
  rw [output_file, output_words, relocate_stored]
  simp only [paddingAgain, Option.map_map]
  rfl

lemma data_again (m : Module) (p : Pass1) (out : Output) (offset : ℕ) :
    (relocate m (outputR (middleR 0 p) out).data
        ((outputR (middleR 0 p) out).reldata ++ (outputR (middleR 0 p) out).symbols)
          offset).map (·.map Prod.fst) = moveAll m (out.data.map reread) offset := by
  have file : (outputR (middleR 0 p) out).reldata ++ (outputR (middleR 0 p) out).symbols =
      (out.data.map Prod.snd).flatMap fputrel ++
        (replicate (whole ((out.data.map Prod.snd).flatMap fputrel).length -
          ((out.data.map Prod.snd).flatMap fputrel).length) 0 ++
            (outputR (middleR 0 p) out).symbols) := by
    rw [← append_assoc]
    rfl
  have words : (outputR (middleR 0 p) out).data = out.data.map Prod.fst ++ [] := by
    rw [append_nil]
    rfl
  rw [file, words, relocate_stored]
  simp only [relocate, map_some, map_nil, append_nil]
  exact bind_fun_some _

lemma ld_one {o : Object} {q : Pass1} {l : Link} {t : List (ℕ × ℕ) × List Nlist}
    {name : List UInt8} (read : pass1 [(name, o)] = some q) (placed : middle b q = some l)
    (names : locals l o = some t) : ld b [(name, o)] =
      ((relocate (moduleOf l o t.1) o.text (o.reltext ++ o.reldata ++ o.symbols) l.torigin).map
          (·.map Prod.fst)).bind fun text =>
        ((relocate (moduleOf l o t.1) o.data (o.reldata ++ o.symbols) l.dorigin).map
            (·.map Prod.fst)).map fun data => ⟨padText l.tsize text, data, l.symtab⟩ := by
  rw [ld, read, bind_some, placed, bind_some, pass2, load2, names, bind_some]
  dsimp only
  cases relocate _ o.text _ l.torigin with
  | none => rfl
  | some text =>
    cases relocate _ o.data _ l.dorigin with
    | none => rfl
    | some data => simp [pass2, Output.append]

lemma padText_full {n : ℕ} {text : List ℕ} (full : W * text.length = n) : padText n text = text := by
  rw [padText, full, Nat.sub_self, Nat.zero_div, replicate_zero, append_nil]

/-- The words of the text and of the padding fill the text. -/
lemma padding_length (measured : Measured ⟨0, 0, 0, 0, []⟩ p out) :
    W * (out.text.length + padding p out) = p.aligned := by
  have size := measured.text
  rw [padding, Pass1.aligned]
  simp only [W] at *
  omega

lemma paddingAgain_length {fill : List ℕ} (moved : paddingAgain b p symtab out = some fill) :
    fill.length = padding p out := by
  obtain ⟨words, done, rfl⟩ := map_eq_some_iff.mp moved
  rw [length_map, relocate_length done, length_replicate]

section

variable (passed : Passed p) (measured : Measured ⟨0, 0, 0, 0, []⟩ p out)
  (done : define p = some symtab) {l : Link} (first : middle b p = some l) (name : List UInt8)
include passed measured done first

/-- The output is read, placed and named by a second link. -/
lemma linked_again : pass1 [(name, outputR (middleR 0 p) out)] = some (p.again (out.syms.length + 1)) ∧
      middle b (p.again (out.syms.length + 1)) = some (again b p symtab out) ∧
      ∃ syms, locals (again b p symtab out) (outputR (middleR 0 p) out) =
        some (references out.syms.length 0 (middleR 0 p).symtab, syms) := by
  obtain ⟨symtab', done', all, -, second⟩ := middle_again first _
  cases some.inj (done.symm.trans done')
  exact ⟨pass1_again passed measured.plain (by rw [measured.text, Nat.zero_add])
    (by rw [measured.data, Nat.zero_add]) name, second, locals_again passed.sound measured done all⟩

lemma ld_again : ld b [(name, outputR (middleR 0 p) out)] =
      (moveAll (moduleAgain b p symtab out) (out.text.map reread) b).bind fun text =>
        (paddingAgain b p symtab out).bind fun fill =>
          (moveAll (moduleAgain b p symtab out) (out.data.map reread) (b + p.aligned)).map fun data =>
            ⟨text ++ fill, data, (again b p symtab out).symtab⟩ := by
  obtain ⟨read, second, syms, names⟩ := linked_again passed measured done first name
  have tsize : (again b p symtab out).tsize = p.aligned := aligned_again p _
  have dorigin : (again b p symtab out).dorigin = b + p.aligned := congrArg _ tsize
  rw [ld_one read second names]
  change Option.bind (Option.map _ (relocate (moduleAgain b p symtab out) _ _ b)) _ = _
  rw [text_again]
  cases moved : moveAll _ _ b with
  | none => rfl
  | some text =>
    cases filled : paddingAgain b p symtab out with
    | none => rfl
    | some fill =>
      have full : W * (text ++ fill).length = p.aligned := by
        rw [length_append, moveAll_length moved, length_map, paddingAgain_length filled]
        exact padding_length measured
      have data := data_again (moduleAgain b p symtab out) p out (b + p.aligned)
      rw [← dorigin] at data ⊢
      rw [← data]
      simp only [bind_some, map_some]
      rw [tsize, padText_full full]
      rfl

end

/-! ### Both links -/

/-- The second link finds a reference by its number. -/
lemma again_named {i : ℕ} {s : Nlist} (entry : (middleR 0 p).symtab[i]? = some s)
    (undf : s.n_type = extern_ .undf) (b : ℕ) (symtab : List Nlist) (out : Output) :
    lookloc (moduleAgain b p symtab out) (out.syms.length + i) = some i := by
  have found := find_references (n := out.syms.length) (i := 0) entry undf
  rw [Nat.zero_add] at found
  rw [lookloc, moduleAgain, moduleOf, found]
  rfl

lemma again_only {n i : ℕ} (found : lookloc (moduleAgain b p symtab out) n = some i) :
    out.syms.length ≤ n := by
  obtain ⟨x, search, -⟩ := map_eq_some_iff.mp found
  obtain ⟨index, -⟩ := mem_references (mem_of_find?_eq_some search)
  have same := find?_some search
  rw [decide_eq_true_eq] at same
  omega

lemma twice_again (base : b % 4 = 0) (sound : Sound p.symtab)
    (measured : Measured ⟨0, 0, 0, 0, []⟩ p out) (done : define p = some symtab)
    (all : ∀ s ∈ symtab, s.n_type ≠ extern_ .undf) (empty : Uncommon p) :
    Twice b (middleR 0 p) (assign b false p (allocate 0 symtab).1 (allocate 0 symtab).2)
      (moduleAgain b p symtab out) := by
  have same := same_symtab (b := b) sound done (out.syms.length + 1) empty
  rw [← again] at same
  have none_placed := allocate_empty ((uncommon_iff done).mp empty)
  have data : p.aligned % 4 = 0 := by
    rw [Pass1.aligned]
    omega
  have dorigin : b + p.aligned = p.aligned + b := Nat.add_comm _ _
  have borigin : b + p.aligned + p.dsize + 0 = p.aligned + p.dsize + b := by omega
  have originR : (middleR 0 p).dorigin = p.aligned := Nat.zero_add _
  have originR' : (middleR 0 p).borigin = p.aligned + p.dsize := by
    simp [middleR, assign, Pass1.aligned]
  obtain ⟨ctrel, cdrel, cbrel⟩ := again_displacements b symtab measured _
  have count : p.nsym = out.syms.length := by rw [measured.count, Nat.zero_add]
  have names : keys (assign b false p (allocate 0 symtab).1 (allocate 0 symtab).2).symtab =
      keys (middleR 0 p).symtab := by
    rw [← same, keys_again sound done, keys_middleR]
  refine ⟨rfl, originR ▸ data, (Nat.zero_add b).symm, ?_, ?_, names, fun o t => ?_⟩
  · rw [originR]
    exact dorigin
  · rw [originR', none_placed]
    exact borigin
  · refine ⟨base, ?_, ?_, ?_, ?_, ctrel, cdrel, cbrel, rfl, rfl, rfl, ?_, rfl, same, ?_, ?_, ?_, ?_⟩
    · change (b + p.aligned + gpoffset) % 4 = 0
      simp only [gpoffset]
      omega
    · change b % WORDS = (0 % WORDS + b) % WORDS
      rw [Nat.mod_add_mod, Nat.zero_add]
    · simp only [moduleOf, originR, ← sub_add, ← dorigin]
      rfl
    · simp only [moduleOf, originR', ← sub_add, ← borigin, none_placed]
      rfl
    · exact congrArg (· + gpoffset) (congrArg _ (aligned_again p _))
    · change (middleR 0 p).symtab.length ≤ NSYM
      rw [middleR_symtab, length_map]
      exact sound.room
    · intro i s entry
      obtain ⟨l, new, shifted, -⟩ := shifted_symtab sound done all _ entry
      rw [← again, same] at new
      exact ⟨l, new, shifted⟩
    · intro i s entry undf
      have found := again_named entry undf b symtab out
      rwa [← count] at found
    · intro n i found
      have bound := again_only found
      rwa [← count] at bound

end

def textWords (files : Files) : ℕ := (files.map (·.2.text.length)).sum

def skip : ℕ → List UInt8 → List UInt8
  | 0, file => file
  | n + 1, file =>
    match fgetrel file with
    | some r => skip n r.2
    | none => []

/-- A file that `ld -r` has written is linked at `b`, and the words of its text behind the first
`n` are left as they are. -/
def PaddingKept (b n : ℕ) (o : Object) : Prop :=
  ∀ l t, (pass1 [([], o)]).bind (middle b) = some l → locals l o = some t →
    (relocate (moduleOf l o t.1) (o.text.drop n) (skip n (o.reltext ++ o.reldata ++ o.symbols))
      (b + W * n)).map (·.map Prod.fst) = some (o.text.drop n)

lemma skip_records (rels : List Reloc) (rest : List UInt8) :
    skip rels.length (rels.flatMap fputrel ++ rest) = rest := by
  induction rels with
  | nil => rfl
  | cons rel rels ih =>
    rw [length_cons, flatMap_cons, append_assoc, skip, fgetrel_fputrel]
    exact ih

lemma pass2_words {l : Link} {files : Files} {out : Output} (done : pass2 l files = some out) :
    out.text.length = textWords files := by
  induction files generalizing l out with
  | nil =>
    cases done
    rfl
  | cons f files ih =>
    obtain ⟨first, load, rest⟩ := bind_eq_some_iff.mp done
    obtain ⟨more, later, rfl⟩ := map_eq_some_iff.mp rest
    obtain ⟨t, -, rest⟩ := bind_eq_some_iff.mp load
    obtain ⟨text, moved, rest⟩ := bind_eq_some_iff.mp rest
    obtain ⟨-, -, rfl⟩ := map_eq_some_iff.mp rest
    rw [Output.append, length_append, ih later, relocate_length moved, textWords, textWords,
      map_cons, sum_cons]

section

variable {b : ℕ} {p : Pass1} {symtab : List Nlist} {out : Output}

lemma paddingKept_iff (passed : Passed p) (measured : Measured ⟨0, 0, 0, 0, []⟩ p out)
    (done : define p = some symtab) {l : Link} (first : middle b p = some l) :
    PaddingKept b out.text.length (outputR (middleR 0 p) out) ↔
      paddingAgain b p symtab out = some (List.replicate (padding p out) 0) := by
  obtain ⟨read, second, syms, names⟩ := linked_again passed measured done first []
  have rest : skip out.text.length ((outputR (middleR 0 p) out).reltext ++
      (outputR (middleR 0 p) out).reldata ++ (outputR (middleR 0 p) out).symbols) = behind p out := by
    have skipped := skip_records (out.text.map Prod.snd) (behind p out)
    rwa [length_map, ← output_file] at skipped
  have words : (outputR (middleR 0 p) out).text.drop out.text.length =
      replicate (padding p out) 0 := by
    rw [output_words]
    apply drop_left'
    rw [length_map]
  rw [PaddingKept, rest, words, paddingAgain, moduleAgain]
  constructor
  · intro kept
    refine kept _ _ ?_ names
    rw [read]
    exact second
  · intro kept l' t linked found
    rw [read, bind_some, second] at linked
    cases linked
    cases some.inj (names.symm.trans found)
    exact kept

/-- The texts are the same but for zeros at the end, the data are the same, and the external
symbols have the same values. -/
def Same (x y : Image) : Prop :=
  (∃ i j, x.text ++ List.replicate i 0 = y.text ++ List.replicate j 0) ∧ x.data = y.data ∧
    x.symtab.map (fun s => (s.n_name, s.n_value)) = y.symtab.map fun s => (s.n_name, s.n_value)

/-- The direct link, and the link of the output of `ld -r`. -/
lemma relinked_iff (base : b % 4 = 0) {files : Files} {l : Link} {outr outl : Output}
    (read : pass1 files = some p) (placed : middle b p = some l)
    (doner : pass2 (middleR 0 p) files = some outr) (donel : pass2 l files = some outl)
    (name : List UInt8) : (∃ img, ld b [(name, outputR (middleR 0 p) outr)] = some img ∧
        Same img ⟨padText l.tsize (outl.text.map Prod.fst), outl.data.map Prod.fst, l.symtab⟩) ↔
      Uncommon p ∧ FilesCommute b l.gp l.symtab (middleR 0 p) files ∧
        PaddingKept b (textWords files) (outputR (middleR 0 p) outr) := by
  have passed := pass1_passed read
  have empty : Passed ⟨0, 0, 0, 0, []⟩ := pass1_passed (show pass1 [] = some _ from rfl)
  have measured := pass2_measured empty read doner
  obtain ⟨symtab, done, all, equal, -⟩ := middle_again placed 0
  have tsize : l.tsize = p.aligned := by
    rw [equal]
    rfl
  have length : outl.text.length = outr.text.length := by rw [pass2_words donel, pass2_words doner]
  have padded : padText l.tsize (outl.text.map Prod.fst) =
      outl.text.map Prod.fst ++ replicate (padding p outr) 0 := by
    rw [padText, tsize, length_map, length, padding]
  rw [ld_again passed measured done placed, padded, ← pass2_words doner,
    paddingKept_iff passed measured done placed]
  have origin : (middleR 0 p).torigin + b = b := Nat.zero_add b
  have origin' : (middleR 0 p).dorigin + b = b + p.aligned := by
    change 0 + p.aligned + b = _
    omega
  have twice empty := twice_again base passed.sound measured done all empty
  rw [← equal] at twice
  constructor
  · rintro ⟨img, linked, ⟨i, j, words⟩, data_same, symbols⟩
    obtain ⟨text, moved, linked⟩ := bind_eq_some_iff.mp linked
    obtain ⟨fill, filled, linked⟩ := bind_eq_some_iff.mp linked
    obtain ⟨data, moved', rfl⟩ := map_eq_some_iff.mp linked
    cases data_same
    have none_common : Uncommon p := by
      apply uncommon_of_same passed.sound done _
      have values := congrArg (map Prod.snd) symbols
      rw [List.map_map, List.map_map, equal] at values
      exact values
    -- both texts are filled up, so that only the words count
    have sizes : text.length = (outl.text.map Prod.fst).length := by
      rw [moveAll_length moved, length_map, length_map, length]
    have fills : fill.length = (List.replicate (padding p outr) 0).length := by
      rw [paddingAgain_length filled, length_replicate]
    obtain ⟨words, -⟩ := append_inj words (by
      rw [length_append, length_append, sizes, fills])
    obtain ⟨rfl, rfl⟩ := append_inj words sizes
    have commute := ((twice none_common).pass2_iff doner donel).mp
    rw [origin, origin'] at commute
    exact ⟨none_common, commute ⟨moved, moved'⟩, filled⟩
  · rintro ⟨none_common, commute, filled⟩
    have moved := ((twice none_common).pass2_iff doner donel).mpr commute
    rw [origin, origin'] at moved
    have symbols : (again b p symtab outr).symtab = l.symtab := by
      rw [equal]
      exact same_symtab passed.sound done _ none_common
    rw [moved.1, moved.2, filled, symbols]
    exact ⟨_, rfl, ⟨0, 0, rfl⟩, rfl, rfl⟩

end

/-- The files have no common with a size; their words and the padding of the text are left right
when they are moved twice. -/
def Relinkable (b : ℕ) (files : Files) : Prop :=
  ∀ p l o, pass1 files = some p → middle b p = some l → ldR files = some o →
    Uncommon p ∧ FilesCommute b l.gp l.symtab (middleR 0 p) files ∧
      PaddingKept b (textWords files) o

/-- A jump to `x` in the text, and the address of `x` in the data. -/
def jumpFile : Object where
  text := [0x08000001, 0, 0, 0]
  data := [4]
  bss := 0
  reltext := [rflags .text .word26, 0, 0, 0]
  reldata := [rflags .text .byte32]
  syms := [⟨[0x78], extern_ .text, 4⟩]
  fill := []
  words := by decide

def commonFile : Object where
  text := []
  data := []
  bss := 0
  reltext := []
  reldata := []
  syms := [⟨[0x78], extern_ .comm, 4⟩]
  fill := []
  words := by decide

end LinkEditor
