import RetroBSD.LinkMoves

/-!
# Segments that are moved twice

From words to the segments of files, and from files to all files: the words that come out of
the second link are those of the direct link if and only if all words commute.
-/

namespace LinkEditor

open ObjectFiles List Option
open Assembler (Reloc fgetrel fputrel)

/-! ### A segment that has been written -/

def moveAll (m : Module) : List (ℕ × Reloc) → ℕ → Option (List ℕ)
  | [], _ => some []
  | w :: ws, offset =>
    (relword m w.1 w.2 offset).bind fun x => (moveAll m ws (offset + W)).map (x.1 :: ·)

def reread (w : ℕ × Reloc) : ℕ × Reloc := (w.1, readBack w.2)

/-- The records that were written are read back; then come the words behind. -/
lemma relocate_stored (m : Module) (ws : List (ℕ × Reloc)) (more : List ℕ) (rest : List UInt8)
    (offset : ℕ) :
    (relocate m (ws.map Prod.fst ++ more) ((ws.map Prod.snd).flatMap fputrel ++ rest) offset).map
        (·.map Prod.fst) =
      (moveAll m (ws.map reread) offset).bind fun words =>
        (relocate m more rest (offset + W * ws.length)).map fun x => words ++ x.map Prod.fst := by
  induction ws generalizing offset with
  | nil => simp [moveAll]
  | cons w ws ih =>
    simp only [map_cons, cons_append, flatMap_cons, append_assoc, relocate,
      fgetrel_fputrel, bind_some, moveAll, reread]
    cases relword m w.1 _ offset with
    | none => rfl
    | some x =>
      have length : offset + W + W * ws.length = offset + W * (w :: ws).length := by
        rw [length_cons, Nat.mul_add]
        omega
      have step := ih (offset + W)
      rw [length] at step
      simp only [bind_some, Option.map_map]
      change Option.map ((x.1 :: ·) ∘ map Prod.fst) _ = _
      rw [← Option.map_map, step]
      cases moveAll m (ws.map reread) (offset + W) with
      | none => rfl
      | some words =>
        simp only [bind_some, map_some, Option.map_map]
        rfl

variable {l r : Link} {words : List ℕ} {m : Module} {b offset : ℕ}

lemma moveAll_length {ws : List (ℕ × Reloc)}
    (done : moveAll m ws offset = some words) : words.length = ws.length := by
  induction ws generalizing offset words with
  | nil =>
    cases done
    rfl
  | cons w ws ih =>
    obtain ⟨x, -, rest⟩ := bind_eq_some_iff.mp done
    obtain ⟨more, moved, rfl⟩ := map_eq_some_iff.mp rest
    rw [length_cons, length_cons, ih moved]

lemma moveAll_append (m : Module) (ws vs : List (ℕ × Reloc)) (offset : ℕ) {x y : List ℕ}
    (length : x.length = ws.length) : moveAll m (ws ++ vs) offset = some (x ++ y) ↔
      moveAll m ws offset = some x ∧ moveAll m vs (offset + W * ws.length) = some y := by
  induction ws generalizing offset x with
  | nil =>
    cases length_eq_zero_iff.mp length
    simp [moveAll]
  | cons w ws ih =>
    cases x with
    | nil => exact nomatch length
    | cons a x =>
      have step := ih (offset + W) (Nat.succ.inj length)
      have place : offset + W + W * ws.length = offset + W * (w :: ws).length := by
        rw [length_cons, Nat.mul_add]
        omega
      rw [place] at step
      simp only [cons_append, moveAll]
      cases relword m w.1 w.2 offset with
      | none => simp
      | some z =>
        simp only [bind_some, map_eq_some_iff, cons.injEq]
        constructor
        · rintro ⟨words, moved, rfl, rfl⟩
          obtain ⟨first, second⟩ := step.mp moved
          exact ⟨⟨x, first, rfl, rfl⟩, second⟩
        · rintro ⟨⟨words, moved, rfl, rfl⟩, second⟩
          exact ⟨words ++ y, step.mpr ⟨moved, second⟩, rfl, rfl⟩

lemma relocate_length {file : List UInt8}
    {out : List (ℕ × Reloc)} (done : relocate m words file offset = some out) :
    out.length = words.length := by
  induction words generalizing file offset out with
  | nil =>
    cases done
    rfl
  | cons word words ih =>
    obtain ⟨r, -, rest⟩ := bind_eq_some_iff.mp done
    obtain ⟨w, -, rest⟩ := bind_eq_some_iff.mp rest
    obtain ⟨more, moved, rfl⟩ := map_eq_some_iff.mp rest
    rw [length_cons, length_cons, ih moved]

/-! ### The words of a file -/

/-- All words of a segment commute, with the records from the file. -/
def SegmentCommutes (b gp nsym : ℕ) (symtab : List Nlist) (r : Module) : List ℕ → List UInt8 → Prop
  | [], _ => True
  | _ :: words, file => ∀ rel rest, fgetrel file = some (rel, rest) →
    (∀ d, delta r rel = some d → Commutes b gp nsym symtab d) ∧
      SegmentCommutes b gp nsym symtab r words rest

/-- `ld -r` keeps the records relative to the global pointer. -/
lemma relword_kept {r : Module} (kept : r.output_relinfo = true) {word : ℕ} {rel : Reloc}
    {d : Delta} (add : delta r rel = some d) : relword r word rel offset =
      some (field (rformat d.rel.flags) d.found d.rel.offset word d.delta offset, settled d) := by
  rw [relword, add, map_some, gpdelta, if_neg fun both => both.2 kept, patch_eq]

lemma Moves.segment_iff {r l : Module} (moves : Moves b r l m)
    {file : List UInt8} {outr outl : List (ℕ × Reloc)}
    (doner : relocate r words file offset = some outr)
    (donel : relocate l words file (offset + b) = some outl) :
    moveAll m (outr.map reread) (offset + b) = some (outl.map Prod.fst) ↔
      SegmentCommutes b l.gp r.nsym l.symtab r words file := by
  induction words generalizing file offset outr outl with
  | nil =>
    cases doner
    cases donel
    exact iff_of_true rfl trivial
  | cons word words ih =>
    obtain ⟨⟨rel, rest⟩, read, next⟩ := bind_eq_some_iff.mp doner
    obtain ⟨wr, first, next⟩ := bind_eq_some_iff.mp next
    obtain ⟨morer, later, rfl⟩ := map_eq_some_iff.mp next
    obtain ⟨⟨rel', rest'⟩, read', next'⟩ := bind_eq_some_iff.mp donel
    obtain ⟨⟨wl, rell⟩, first', next'⟩ := bind_eq_some_iff.mp next'
    obtain ⟨morel, later', rfl⟩ := map_eq_some_iff.mp next'
    cases some.inj (read.symm.trans read')
    obtain ⟨d, add, -⟩ := map_eq_some_iff.mp first
    cases some.inj (first.symm.trans (relword_kept moves.kept add))
    have twice := moves.relword_twice add (fgetrel_offset read) first'
    have place : offset + b + W = offset + W + b := by omega
    rw [place] at later'
    have rest_iff := ih later later'
    simp only [map_cons, moveAll, reread, SegmentCommutes]
    constructor
    · intro done rel' rest' again
      cases some.inj (read.symm.trans again)
      obtain ⟨x, moved, done⟩ := bind_eq_some_iff.mp done
      obtain ⟨xs, others, same⟩ := map_eq_some_iff.mp done
      obtain ⟨rfl, rfl⟩ := cons.inj same
      rw [place] at others
      refine ⟨fun d' add' => ?_, rest_iff.mp others⟩
      cases some.inj (add.symm.trans add')
      exact twice.mp ⟨x.2, moved⟩
    · intro commutes
      obtain ⟨here, others⟩ := commutes rel rest read
      obtain ⟨rel'', moved⟩ := twice.mpr (here d add)
      rw [moved, place, rest_iff.mpr others]
      rfl

/-! ### All files -/

def FilesCommute (b gp : ℕ) (symtab : List Nlist) : Link → Files → Prop
  | _, [] => True
  | r, f :: files =>
    (∀ t, locals r f.2 = some t →
      SegmentCommutes b gp r.nsym symtab (moduleOf r f.2 t.1) f.2.text
          (f.2.reltext ++ f.2.reldata ++ f.2.symbols) ∧
        SegmentCommutes b gp r.nsym symtab (moduleOf r f.2 t.1) f.2.data
          (f.2.reldata ++ f.2.symbols)) ∧
      FilesCommute b gp symtab (r.next f.2) files

/-- `ld -r` and the direct link before a file, and the module that is linked again. -/
structure Twice (b : ℕ) (r l : Link) (m : Module) : Prop where
  text : r.torigin % 4 = 0
  data : r.dorigin % 4 = 0
  torigin : l.torigin = r.torigin + b
  dorigin : l.dorigin = r.dorigin + b
  borigin : l.borigin = r.borigin + b
  names : keys l.symtab = keys r.symtab
  moves : ∀ o t, Moves b (moduleOf r o t) (moduleOf l o t) m

lemma sub_add (a b c : ℕ) : sub (a + b) c = (sub a c + b) % WORDS := by
  rw [sub, sub]
  simp only [WORDS]
  omega

lemma whole_add (base : b % 4 = 0) (n m : ℕ) : whole (n + b + m) = whole (n + m) + b := by
  rw [whole, whole]
  omega

lemma Twice.next (twice : Twice b r l m) (f : Object) : Twice b (r.next f) (l.next f) m := by
  have base := (twice.moves f []).base
  have torigin : (l.next f).torigin = (r.next f).torigin + b := by
    simp [Link.next, twice.torigin, whole_add base]
  have dorigin : (l.next f).dorigin = (r.next f).dorigin + b := by
    simp [Link.next, twice.dorigin, whole_add base]
  have borigin : (l.next f).borigin = (r.next f).borigin + b := by
    simp [Link.next, twice.borigin, whole_add base]
  refine ⟨whole_mod _, whole_mod _, torigin, dorigin, borigin, twice.names, fun o t => ?_⟩
  have ctrel : (moduleOf (l.next f) o t).ctrel = ((moduleOf (r.next f) o t).ctrel + b) % WORDS := by
    simp [moduleOf, torigin]
  have cdrel : (moduleOf (l.next f) o t).cdrel = ((moduleOf (r.next f) o t).cdrel + b) % WORDS := by
    simp [moduleOf, dorigin, sub_add]
  have cbrel : (moduleOf (l.next f) o t).cbrel = ((moduleOf (r.next f) o t).cbrel + b) % WORDS := by
    simp [moduleOf, borigin, sub_add]
  have before := twice.moves o t
  exact ⟨base, before.pointer, ctrel, cdrel, cbrel, before.text, before.data, before.bss, before.kept,
    before.direct, before.final, before.gp, before.locals, before.symtab, before.room,
    before.shifted, before.named, before.only⟩

lemma symreloc_type (a b c a' b' c' : ℕ) (s : Nlist) :
    (symreloc a b c s).n_type = (symreloc a' b' c' s).n_type := by
  obtain ⟨-, ⟨kind, ext, weak, loc⟩, -⟩ := s
  cases weak <;> cases loc <;> cases ext <;> cases kind <;> rfl

section

variable {m' : Module} (names : keys m'.symtab = keys m.symtab)
  {p q p' q' : ℕ × List (ℕ × ℕ) × List Nlist}
include names

lemma load2sym_same {s : Nlist} (done : load2sym m p s = some q)
    (done' : load2sym m' p' s = some q') (count : p'.1 = p.1) (same : p'.2.1 = p.2.1) :
    q'.1 = q.1 ∧ q'.2.1 = q.2.1 := by
  have type := symreloc_type m.ctrel m.cdrel m.cbrel m'.ctrel m'.cdrel m'.cbrel s
  have search : lookup m'.symtab s.n_name = lookup m.symtab s.n_name := by
    rw [lookup, lookup, names]
  simp only [load2sym, symreloc_name, search, ← type] at done done'
  by_cases ext : (symreloc m.ctrel m.cdrel m.cbrel s).n_type.ext = true
  · rw [if_pos ext] at done done'
    obtain ⟨i, found, done⟩ := bind_eq_some_iff.mp done
    obtain ⟨i', found', done'⟩ := bind_eq_some_iff.mp done'
    cases Option.some.inj (found.symm.trans found')
    split_ifs at done done' with undf room
    · cases done
      cases done'
      exact ⟨congrArg (· + 1) count, by rw [same, count]⟩
    · cases done
      cases done'
      exact ⟨congrArg (· + 1) count, same⟩
  · rw [if_neg ext] at done done'
    cases done
    cases done'
    exact ⟨congrArg (· + 1) count, same⟩

lemma load2syms_same {syms : List Nlist}
    (done : syms.foldlM (load2sym m) p = some q) (done' : syms.foldlM (load2sym m') p' = some q')
    (count : p'.1 = p.1) (same : p'.2.1 = p.2.1) : q'.2.1 = q.2.1 := by
  induction syms generalizing p p' with
  | nil =>
    cases done
    cases done'
    exact same
  | cons s syms ih =>
    obtain ⟨x, first, rest⟩ := bind_eq_some_iff.mp done
    obtain ⟨x', first', rest'⟩ := bind_eq_some_iff.mp done'
    obtain ⟨count, same⟩ := load2sym_same names first first' count same
    exact ih rest rest' count same

end

lemma Twice.locals_same (twice : Twice b r l m) {o : Object}
    {t t' : List (ℕ × ℕ) × List Nlist} (done : locals r o = some t) (done' : locals l o = some t') :
    t'.1 = t.1 := by
  obtain ⟨q, run, rfl⟩ := map_eq_some_iff.mp done
  obtain ⟨q', run', rfl⟩ := map_eq_some_iff.mp done'
  exact load2syms_same twice.names run run' rfl rfl

/-- The words are those of the direct link if and only if the words of all files commute. -/
lemma Twice.pass2_iff (twice : Twice b r l m) {files : Files}
    {outr outl : Output} (doner : pass2 r files = some outr) (donel : pass2 l files = some outl) :
    moveAll m (outr.text.map reread) (r.torigin + b) = some (outl.text.map Prod.fst) ∧
        moveAll m (outr.data.map reread) (r.dorigin + b) = some (outl.data.map Prod.fst) ↔
      FilesCommute b l.gp l.symtab r files := by
  induction files generalizing r l outr outl with
  | nil =>
    cases doner
    cases donel
    exact iff_of_true ⟨rfl, rfl⟩ trivial
  | cons f files ih =>
    obtain ⟨firstr, loadr, rest⟩ := bind_eq_some_iff.mp doner
    obtain ⟨morer, restr, rfl⟩ := map_eq_some_iff.mp rest
    obtain ⟨firstl, loadl, rest⟩ := bind_eq_some_iff.mp donel
    obtain ⟨morel, restl, rfl⟩ := map_eq_some_iff.mp rest
    obtain ⟨t, symsr, rest⟩ := bind_eq_some_iff.mp loadr
    obtain ⟨textr, movedr, rest⟩ := bind_eq_some_iff.mp rest
    obtain ⟨datar, movedr', rfl⟩ := map_eq_some_iff.mp rest
    obtain ⟨t', symsl, rest⟩ := bind_eq_some_iff.mp loadl
    obtain ⟨textl, movedl, rest⟩ := bind_eq_some_iff.mp rest
    obtain ⟨datal, movedl', rfl⟩ := map_eq_some_iff.mp rest
    rw [twice.locals_same symsr symsl, twice.torigin] at movedl
    rw [twice.locals_same symsr symsl, twice.dorigin] at movedl'
    have moves := twice.moves f.2 t.1
    have text_iff := moves.segment_iff movedr movedl
    have data_iff := moves.segment_iff movedr' movedl'
    have others := ih (twice.next f.2) restr restl
    have next_text : (r.next f.2).torigin + b = r.torigin + b + W * (textr.map reread).length := by
      rw [length_map, relocate_length movedr, ← Object.a_text]
      have even := twice.text
      have next : (r.next f.2).torigin = r.torigin + f.2.a_text := by
        apply whole_eq
        rw [Object.a_text]
        simp only [W]
        omega
      omega
    have next_data : (r.next f.2).dorigin + b = r.dorigin + b + W * (datar.map reread).length := by
      rw [length_map, relocate_length movedr', ← Object.a_data]
      have even := twice.data
      have next : (r.next f.2).dorigin = r.dorigin + f.2.a_data := by
        apply whole_eq
        rw [Object.a_data]
        simp only [W]
        omega
      omega
    rw [next_text, next_data] at others
    have length : (textl.map Prod.fst).length = (textr.map reread).length := by
      rw [length_map, length_map, relocate_length movedl, relocate_length movedr]
    have length' : (datal.map Prod.fst).length = (datar.map reread).length := by
      rw [length_map, length_map, relocate_length movedl', relocate_length movedr']
    simp only [Output.append, map_append]
    rw [moveAll_append m _ _ _ length, moveAll_append m _ _ _ length', text_iff, data_iff]
    constructor
    · rintro ⟨⟨here, there⟩, here', there'⟩
      refine ⟨fun t' again => ?_, others.mp ⟨there, there'⟩⟩
      cases some.inj (symsr.symm.trans again)
      exact ⟨here, here'⟩
    · rintro ⟨here, rest⟩
      obtain ⟨there, there'⟩ := others.mpr rest
      exact ⟨⟨(here t symsr).1, there⟩, (here t symsr).2, there'⟩

end LinkEditor
