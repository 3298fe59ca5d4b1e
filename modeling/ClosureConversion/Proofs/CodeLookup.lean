import Mathlib.Data.List.Nodup
import Mathlib.Tactic.Common
import ClosureConversion.Command.Basic

/-!
# Looking up a diagnostic code

A text is taken for a diagnostic code in two ways. `DiagnosticCode.parse?` folds the case of ASCII
letters and nothing else; the explanations are looked up by the upper-case form of the text, which
knows all of Unicode. The two could differ wherever the upper-case mapping leads into ASCII from
outside.

* **Preimages** (`Text.upperChar_eq_cons_iff`, `Text.upper_eq_iff`): a text over characters that no
  expansion starts with is the upper-case form of exactly the texts that ASCII folding takes to it once
  the dotless i counts as an i.
* **Agreement** (`explainsAsParsed_iff`): the lookups agree at every text but one, `ı001`.
-/

namespace ClosureConversion

namespace Text

/-! ## What turns into a given character -/

/-- The character, with the dotless i taken for an i. -/
def dotted (c : Char) : Char := if c = 'ı' then 'i' else c

/-- An ASCII character that is no first character of an expansion and not the form of the long s. -/
def Plain (x : Char) : Prop :=
  0 < x.toNat ∧ x.toNat < 0x80 ∧ x ≠ 'S' ∧ ∀ e ∈ caseExpansions, e.2.head? ≠ some x.toNat

instance : DecidablePred Plain := fun _ => inferInstanceAs (Decidable (_ ∧ _))

/-- Only the dotless i is taken for something else. -/
theorem dotted_of_ne {c : Char} (h : c ≠ 'ı') : dotted c = c := if_neg h

/-- A property of the ASCII characters, checked one by one. -/
theorem forall_ascii {P : Char → Prop} (h : ∀ n < 0x80, P (Char.ofNat n)) {c : Char}
    (hc : c.toNat < 0x80) : P c := by
  have hn := h c.toNat hc
  rwa [Char.ofNat_toNat] at hn

/-- ASCII folding leaves everything else as it is. -/
theorem toUpper_of_not_ascii {c : Char} (h : 0x80 ≤ c.toNat) : c.toUpper = c := by
  refine dif_neg fun hlower => ?_
  have hle : c.toNat ≤ 0x7A := UInt32.le_iff_toNat_le.mp hlower.2
  omega

/-- A character with a positive number was made from that number. -/
theorem toNat_eq_of_ofNat_eq {n : Nat} {x : Char} (h : Char.ofNat n = x) (hx : 0 < x.toNat) :
    n = x.toNat := by
  subst h
  by_cases hn : n.isValidChar
  · rw [Char.ofNat, dif_pos hn]
    rfl
  · rw [Char.ofNat, dif_neg hn] at hx
    exact absurd hx (by decide)

/-- Where the upper-case form of a character comes from. -/
theorem upperChar_cases (c : Char) :
    (∃ codes, (c.toNat, codes) ∈ caseExpansions ∧ upperChar c = codes.map Char.ofNat) ∨
      (∃ r ∈ caseRuns, r.first ≤ c.toNat ∧ c.toNat ≤ r.last ∧
        upperChar c = [Char.ofNat (c.toNat + r.shift).toNat]) ∨
      ((∀ r ∈ caseRuns, ¬r.covers c.toNat) ∧ upperChar c = [c]) := by
  unfold upperChar
  split
  · next codes hcodes =>
      obtain ⟨before, after, hsplit, -⟩ := List.lookup_eq_some_iff.mp hcodes
      exact .inl ⟨codes, by simp [hsplit], rfl⟩
  · split
    · next r hr =>
        have hcovers := List.find?_some hr
        simp only [CaseRun.covers, Bool.and_eq_true, decide_eq_true_eq] at hcovers
        exact .inr (.inl ⟨r, List.mem_of_find?_eq_some hr, hcovers.1.1, hcovers.1.2, rfl⟩)
    · next hnone => exact .inr (.inr ⟨List.find?_eq_none.mp hnone, rfl⟩)

/-- Only characters outside ASCII expand, and not to nothing. -/
theorem expansion_of_mem : ∀ e ∈ caseExpansions, 0x80 ≤ e.1 ∧ e.2 ≠ [] := by decide

/-- Every character has an upper-case form of at least one character. -/
theorem upperChar_ne_nil (c : Char) : upperChar c ≠ [] := by
  rcases upperChar_cases c with ⟨codes, hcodes, h⟩ | ⟨r, -, -, -, h⟩ | ⟨-, h⟩
  · rw [h]
    simpa using (expansion_of_mem _ hcodes).2
  · simp [h]
  · simp [h]

/-- The run of the ASCII letters. -/
def asciiRun : CaseRun := ⟨0x61, 0x7A, 1, -32⟩

/-- The ASCII letters are one of the runs. -/
theorem asciiRun_mem : asciiRun ∈ caseRuns := List.mem_cons_self

/-- All other runs lie outside ASCII, and two letters of theirs turn into ASCII ones: the dotless i and
the long s. -/
theorem run_of_mem : ∀ r ∈ caseRuns,
    (r.first = 0x61 ∧ r.last = 0x7A ∧ r.shift = -32) ∨
      (0x80 ≤ r.first ∧ 0x80 ≤ (r.first : Int) + r.shift) ∨
      (r.first = 0x131 ∧ r.last = 0x131 ∧ r.shift = -232) ∨
      (r.first = 0x17F ∧ r.last = 0x17F ∧ r.shift = -300) := by
  decide +kernel

/-- On ASCII the full mapping is ASCII folding. -/
theorem upperChar_of_ascii {c : Char} (h : c.toNat < 0x80) : upperChar c = [c.toUpper] := by
  rcases upperChar_cases c with ⟨codes, hcodes, -⟩ | ⟨r, hr, hfirst, hlast, hform⟩ | ⟨hnone, hform⟩
  · exact absurd h (Nat.not_lt.mpr (expansion_of_mem _ hcodes).1)
  · rcases run_of_mem r hr with ⟨hrun, hend, hshift⟩ | ⟨hrun, -⟩ | ⟨hrun, -, -⟩ | ⟨hrun, -, -⟩
    · rw [hrun] at hfirst
      rw [hend] at hlast
      rw [hform, hshift]
      exact forall_ascii (P := fun c => 0x61 ≤ c.toNat → c.toNat ≤ 0x7A →
        [Char.ofNat ((c.toNat : Int) + -32).toNat] = [c.toUpper]) (by decide) h hfirst hlast
    · omega
    · omega
    · omega
  · rw [hform]
    exact forall_ascii (P := fun c => ¬asciiRun.covers c.toNat → [c] = [c.toUpper])
      (by decide) h (hnone _ asciiRun_mem)

/-- Among the plain characters only `I` is reached from outside ASCII, and only from the dotless i. -/
theorem eq_dotless_of_upperChar {c x : Char} {rest : List Char} (hc : 0x80 ≤ c.toNat) (hx : Plain x)
    (h : upperChar c = x :: rest) : c = 'ı' := by
  obtain ⟨hpos, hascii, hs, hheads⟩ := hx
  rcases upperChar_cases c with ⟨codes, hcodes, hform⟩ | ⟨r, hr, hfirst, hlast, hform⟩ | ⟨-, hform⟩
  · -- an expansion would start with `x`
    rw [h] at hform
    obtain ⟨n, ns, rfl, hn, -⟩ := List.map_eq_cons_iff.mp hform.symm
    have hhead := hheads _ hcodes
    rw [toNat_eq_of_ofNat_eq hn hpos] at hhead
    exact absurd rfl hhead
  · -- `x` is at a fixed distance from `c`
    rw [h] at hform
    have hn := toNat_eq_of_ofNat_eq (List.cons.inj hform).1.symm hpos
    rcases run_of_mem r hr with ⟨-, hend, -⟩ | ⟨-, hrun⟩ | ⟨hrun, hend, -⟩ | ⟨hrun, hend, hshift⟩
    · omega
    · omega
    · have hcode : c.toNat = 'ı'.toNat := by
        change c.toNat = 0x131
        omega
      exact Char.toNat_inj.mp hcode
    · have hcode : x.toNat = 'S'.toNat := by
        change x.toNat = 0x53
        omega
      exact absurd (Char.toNat_inj.mp hcode) hs
  · rw [h] at hform
    rw [(List.cons.inj hform).1] at hascii
    omega

/-- The characters whose upper-case form starts with a plain character. -/
theorem upperChar_eq_cons_iff {c x : Char} {rest : List Char} (hx : Plain x) :
    upperChar c = x :: rest ↔ (dotted c).toUpper = x ∧ rest = [] := by
  by_cases hdot : c = 'ı'
  · subst hdot
    have hform : upperChar 'ı' = [(dotted 'ı').toUpper] := by decide
    rw [hform, List.cons.injEq, eq_comm (a := [])]
  · rw [dotted_of_ne hdot]
    by_cases hc : c.toNat < 0x80
    · rw [upperChar_of_ascii hc, List.cons.injEq, eq_comm (a := [])]
    · have hout : 0x80 ≤ c.toNat := Nat.le_of_not_lt hc
      refine ⟨fun h => absurd (eq_dotless_of_upperChar hout hx h) hdot, fun h => ?_⟩
      rw [toUpper_of_not_ascii hout] at h
      exact absurd (h.1 ▸ hx.2.1) hc

/-- The characters of a text, with the dotless i taken for an i and ASCII letters in upper case. -/
def dottedFold (cs : List Char) : List Char := cs.map fun c => (dotted c).toUpper

/-- A text turns into a plain one exactly if it is that text, ASCII case and the dotless i apart. -/
theorem flatMap_upperChar_eq_iff {t : List Char} (ht : ∀ x ∈ t, Plain x) (cs : List Char) :
    cs.flatMap upperChar = t ↔ dottedFold cs = t := by
  induction cs generalizing t with
  | nil => rfl
  | cons c cs ih =>
      obtain ⟨x, rest, hform⟩ := List.exists_cons_of_ne_nil (upperChar_ne_nil c)
      cases t with
      | nil => simp [dottedFold, hform]
      | cons y t =>
          have hy : Plain y := ht y List.mem_cons_self
          have htail := ih fun x hx => ht x (List.mem_cons_of_mem y hx)
          rw [List.flatMap_cons, dottedFold, List.map_cons, List.cons.injEq]
          constructor
          · intro h
            rw [hform, List.cons_append] at h
            obtain ⟨rfl, hrest⟩ := List.cons.inj h
            obtain ⟨hfold, rfl⟩ := (upperChar_eq_cons_iff hy).mp hform
            exact ⟨hfold, htail.mp hrest⟩
          · rintro ⟨hfold, hrest⟩
            rw [(upperChar_eq_cons_iff hy).mpr ⟨hfold, rfl⟩, htail.mpr hrest]
            rfl

/-- The texts whose upper-case form is a given text of plain characters. -/
theorem upper_eq_iff {s t : String} (ht : ∀ x ∈ t.toList, Plain x) :
    upper s = t ↔ dottedFold s.toList = t.toList := by
  rw [← flatMap_upperChar_eq_iff ht, ← String.toList_inj, upper, String.toList_ofList]

/-- Only the digit itself folds to a digit. -/
theorem eq_digit_of_fold {c x : Char} (hx : x = '0' ∨ x = '1') (h : (dotted c).toUpper = x) :
    c = x := by
  by_cases hdot : c = 'ı'
  · subst hdot
    subst h
    exact absurd hx (by decide)
  · rw [dotted_of_ne hdot] at h
    by_cases hc : c.toNat < 0x80
    · have hdigits := forall_ascii (P := fun c => (c.toUpper = '0' → c = '0') ∧
        (c.toUpper = '1' → c = '1')) (by decide) hc
      rcases hx with rfl | rfl
      · exact hdigits.1 h
      · exact hdigits.2 h
    · rwa [toUpper_of_not_ascii (Nat.le_of_not_lt hc)] at h

end Text

/-! ## The two lookups -/

namespace DiagnosticCode

/-- All codes are listed. -/
theorem mem_all (code : DiagnosticCode) : code ∈ all := by cases code <;> decide

/-- The characters of codes are plain. -/
theorem plain_text (code : DiagnosticCode) : ∀ x ∈ code.text.toList, Text.Plain x := by
  have hall : ∀ code ∈ all, code.text.toList.all (fun x => decide (Text.Plain x)) = true := by decide
  intro x hx
  exact of_decide_eq_true (List.all_eq_true.mp (hall code code.mem_all) x hx)

/-- Codes are in upper case. -/
theorem asciiFold_text (code : DiagnosticCode) : asciiFold code.text = code.text.toList := by
  cases code <;> decide

/-- Codes with the same text are the same. -/
theorem text_injective : Function.Injective text := by
  intro a b h
  have hnodup : (all.map text).Nodup := by decide
  exact List.inj_on_of_nodup_map hnodup a.mem_all b.mem_all h

/-- A text stands for the code that it is in upper case. -/
theorem parse?_eq_some_iff {s : String} {code : DiagnosticCode} :
    parse? s = some code ↔ asciiFold s = code.text.toList := by
  constructor
  · intro h
    have hfold := List.find?_some h
    rw [beq_iff_eq, asciiFold_text] at hfold
    exact hfold.symm
  · intro h
    obtain ⟨found, hfound⟩ : ∃ found, parse? s = some found := by
      refine Option.isSome_iff_exists.mp (List.find?_isSome.mpr ⟨code, mem_all code, ?_⟩)
      rw [beq_iff_eq, asciiFold_text, h]
    have hfold := List.find?_some hfound
    rw [beq_iff_eq, asciiFold_text, h, String.toList_inj] at hfold
    rw [hfound, text_injective hfold]

/-- The dotless i makes a difference to one code only. -/
theorem dottedFold_eq_iff {s : String} {code : DiagnosticCode} :
    Text.dottedFold s.toList = code.text.toList ↔
      asciiFold s = code.text.toList ∨ (s = "ı001" ∧ code = .internalError) := by
  by_cases hdot : 'ı' ∈ s.toList
  · have hfold : asciiFold s ≠ code.text.toList := by
      intro h
      have hmem : 'ı' ∈ asciiFold s := List.mem_map.mpr ⟨'ı', hdot, by decide⟩
      rw [h] at hmem
      exact absurd (plain_text code _ hmem) (by decide)
    constructor
    · intro h
      have hcapital : 'I' ∈ code.text.toList := h ▸ List.mem_map.mpr ⟨'ı', hdot, by decide⟩
      have honly : ∀ code ∈ all, 'I' ∈ code.text.toList → code = .internalError := by decide
      obtain rfl := honly code code.mem_all hcapital
      refine .inr ⟨?_, rfl⟩
      -- three of the four characters are digits, so the dotless i stands first
      have htext : internalError.text.toList = ['I', '0', '0', '1'] := by decide
      obtain ⟨a, s₁, hs, -, hs₁⟩ := List.map_eq_cons_iff.mp (h.trans htext)
      obtain ⟨b, s₂, rfl, hb, hs₂⟩ := List.map_eq_cons_iff.mp hs₁
      obtain ⟨c, s₃, rfl, hc, hs₃⟩ := List.map_eq_cons_iff.mp hs₂
      obtain ⟨d, s₄, rfl, hd, hs₄⟩ := List.map_eq_cons_iff.mp hs₃
      obtain rfl := List.map_eq_nil_iff.mp hs₄
      obtain rfl := Text.eq_digit_of_fold (by decide) hb
      obtain rfl := Text.eq_digit_of_fold (by decide) hc
      obtain rfl := Text.eq_digit_of_fold (by decide) hd
      obtain rfl : 'ı' = a := by simpa [hs] using hdot
      exact String.toList_inj.mp hs
    · rintro (h | ⟨rfl, rfl⟩)
      · exact absurd h hfold
      · decide
  · have hsame : Text.dottedFold s.toList = asciiFold s := by
      refine List.map_congr_left fun c hc => ?_
      rw [Text.dotted_of_ne fun h => hdot (h ▸ hc)]
    rw [hsame]
    refine ⟨.inl, ?_⟩
    rintro (h | ⟨rfl, -⟩)
    · exact h
    · exact absurd (by decide) hdot

/-- The texts whose upper-case form is a code. -/
theorem upper_eq_text_iff {s : String} {code : DiagnosticCode} :
    Text.upper s = code.text ↔
      parse? s = some code ∨ (s = "ı001" ∧ code = .internalError) := by
  rw [Text.upper_eq_iff code.plain_text, dottedFold_eq_iff, parse?_eq_some_iff]

end DiagnosticCode

namespace Explanation

/-- Every code is explained once, in the order of the codes. -/
theorem map_code_all : all.map code = DiagnosticCode.all.map DiagnosticCode.text := by decide

/-- Every explanation is about a code. -/
theorem exists_code_of_mem {e : Explanation} (h : e ∈ all) : ∃ c : DiagnosticCode, e.code = c.text := by
  have hmem : e.code ∈ DiagnosticCode.all.map DiagnosticCode.text :=
    map_code_all ▸ List.mem_map_of_mem h
  obtain ⟨c, -, hc⟩ := List.mem_map.mp hmem
  exact ⟨c, hc.symm⟩

/-- Every code has an explanation. -/
theorem exists_mem_of_code (c : DiagnosticCode) : ∃ e ∈ all, e.code = c.text :=
  List.mem_map.mp (map_code_all ▸ List.mem_map_of_mem c.mem_all)

/-- An explanation is given by its code. -/
theorem eq_of_code_eq {e e' : Explanation} (h : e ∈ all) (h' : e' ∈ all) (hcode : e.code = e'.code) :
    e = e' := by
  have hnodup : (all.map code).Nodup := by decide
  exact List.inj_on_of_nodup_map hnodup h h' hcode

/-- An explanation is found under the upper-case form of a text. -/
theorem find?_eq_some_iff {s : String} {e : Explanation} :
    find? s = some e ↔ e ∈ all ∧ e.code = Text.upper s := by
  constructor
  · intro h
    have hcode := List.find?_some h
    exact ⟨List.mem_of_find?_eq_some h, beq_iff_eq.mp hcode⟩
  · rintro ⟨hmem, hcode⟩
    obtain ⟨found, hfound⟩ : ∃ found, find? s = some found :=
      Option.isSome_iff_exists.mp (List.find?_isSome.mpr ⟨e, hmem, beq_iff_eq.mpr hcode⟩)
    have hsame := List.find?_some hfound
    rw [beq_iff_eq, ← hcode] at hsame
    rw [hfound, eq_of_code_eq (List.mem_of_find?_eq_some hfound) hmem hsame]

/-- The outcome of a command that shows an explanation. -/
def shown (p : Presentation) (e : Explanation) : Outcome :=
  match p.format with
  | .text => .success (e.listing p.colored) "" []
  | .json => .success (e.toJson.pretty ++ "\n") "" []

end Explanation

/-- A text is explained as the code it is read as: the command shows the one explanation with that
code, or finds none if the text is read as no code. -/
def ExplainsAsParsed (p : Presentation) (s : String) : Prop :=
  match DiagnosticCode.parse? s with
  | some code => ∃ e ∈ Explanation.all, (∀ e' ∈ Explanation.all, e'.code = code.text ↔ e' = e) ∧
      Explanation.find? s = some e ∧ explainCode p s = e.shown p
  | none => Explanation.find? s = none ∧ explainCode p s = .failed (.unknownCode (Text.upper s))

/-- What is found is shown. -/
theorem explainCode_of_find? {s : String} {e : Explanation} (p : Presentation)
    (h : Explanation.find? s = some e) : explainCode p s = e.shown p := by
  rw [explainCode, h]
  rfl

/-- The two lookups of a diagnostic code agree at every text but one. -/
theorem explainsAsParsed_iff (p : Presentation) (s : String) : ExplainsAsParsed p s ↔ s ≠ "ı001" := by
  constructor
  · rintro h rfl
    have hparse : DiagnosticCode.parse? "ı001" = none := by decide
    have hfind : (Explanation.find? "ı001").isSome := by decide
    rw [ExplainsAsParsed, hparse] at h
    rw [h.1] at hfind
    exact absurd hfind (by decide)
  · intro hs
    have hupper : ∀ code : DiagnosticCode,
        Text.upper s = code.text ↔ DiagnosticCode.parse? s = some code := by
      intro code
      rw [DiagnosticCode.upper_eq_text_iff]
      exact ⟨fun h => h.resolve_right fun hodd => hs hodd.1, .inl⟩
    rw [ExplainsAsParsed]
    split
    · next code hparse =>
        obtain ⟨e, hmem, hcode⟩ := Explanation.exists_mem_of_code code
        have hfind : Explanation.find? s = some e :=
          Explanation.find?_eq_some_iff.mpr ⟨hmem, hcode.trans ((hupper code).mpr hparse).symm⟩
        refine ⟨e, hmem, fun e' hmem' => ⟨fun h => ?_, fun h => h ▸ hcode⟩, hfind,
          explainCode_of_find? p hfind⟩
        exact Explanation.eq_of_code_eq hmem' hmem (h.trans hcode.symm)
    · next hparse =>
        have hfind : Explanation.find? s = none := by
          refine Option.eq_none_iff_forall_not_mem.mpr fun e he => ?_
          obtain ⟨hmem, hcode⟩ := Explanation.find?_eq_some_iff.mp he
          obtain ⟨code, htext⟩ := Explanation.exists_code_of_mem hmem
          have hsome := (hupper code).mp (hcode.symm.trans htext)
          rw [hparse] at hsome
          cases hsome
        refine ⟨hfind, ?_⟩
        rw [explainCode, hfind]

/-- The exception: the dotless i is upper-cased to `I` and is no ASCII letter. -/
theorem explain_dotless_i :
    DiagnosticCode.parse? "ı001" = none ∧
      (Explanation.find? "ı001").map (·.code) = some DiagnosticCode.internalError.text := by
  decide

end ClosureConversion
