import ClosureConversion.Proofs.Json.Numerals

/-!
# Documents read back

The compact text of a document is read back as that document (`Json.Proper.parse?_compact`), provided
that its number literals are proper. Strings go character by character: what is written for a character
is one piece of the string read (`Json.exists_piece`). Documents go by recursion over their structure,
and the bound for the steps of the reader that the length of the text gives is enough for them
(`Json.Proper.readsBack`).
-/

namespace ClosureConversion.Json

/-! ## Strings -/

/-- A hexadecimal digit that is written is read. -/
theorem hexValue?_digitChar : ∀ n < 16, hexValue? (Nat.digitChar n) = some n := by decide

/-- A control character is read back from its number. -/
theorem hexUnit?_control {c : Char} (h : c < ' ') :
    hexUnit? '0' '0' (Nat.digitChar (c.toNat / 16)) (Nat.digitChar (c.toNat % 16)) =
      some c.toNat := by
  have hlt : c.toNat < 32 := h
  have hzero : hexValue? '0' = some 0 := by decide
  unfold hexUnit?
  rw [hzero, hexValue?_digitChar _ (by omega), hexValue?_digitChar _ (by omega)]
  simp only [Option.bind_eq_bind, Option.bind_some, Option.pure_def]
  congr 1
  omega

/-- An escaped control character is one unit. -/
theorem join?_control {c : Char} (h : c < ' ') (ps : List Piece) :
    join? (.unit c.toNat :: ps) = (c :: ·) <$> join? ps := by
  have hlt : c.toNat < 32 := h
  have hhigh : ¬(0xD800 ≤ c.toNat ∧ c.toNat ≤ 0xDBFF) := by omega
  have hlow : ¬(0xDC00 ≤ c.toNat ∧ c.toNat ≤ 0xDFFF) := by omega
  rw [join?.eq_def]
  dsimp only
  rw [if_neg hhigh, if_neg hlow, Char.ofNat_toNat]

/-- A character is written as a one-letter escape, by its number, or as it is. -/
theorem escapeChar_cases (c : Char) :
    (∃ e, shortEscape? e = some c ∧ escapeChar c = ['\\', e]) ∨
      (c < ' ' ∧ escapeChar c =
        ['\\', 'u', '0', '0', Nat.digitChar (c.toNat / 16), Nat.digitChar (c.toNat % 16)]) ∨
      (c ≠ '"' ∧ c ≠ '\\' ∧ ¬c < ' ' ∧ escapeChar c = [c]) := by
  unfold escapeChar
  split
  next h => exact .inl ⟨'"', by rw [h]; rfl, rfl⟩
  next hquote =>
  split
  next h => exact .inl ⟨'\\', by rw [h]; rfl, rfl⟩
  next hslash =>
  split
  next h => exact .inl ⟨'b', by rw [h]; rfl, rfl⟩
  split
  next h => exact .inl ⟨'f', by rw [h]; rfl, rfl⟩
  split
  next h => exact .inl ⟨'n', by rw [h]; rfl, rfl⟩
  split
  next h => exact .inl ⟨'r', by rw [h]; rfl, rfl⟩
  split
  next h => exact .inl ⟨'t', by rw [h]; rfl, rfl⟩
  split
  next hcontrol => exact .inr (.inl ⟨hcontrol, rfl⟩)
  next hplain => exact .inr (.inr ⟨hquote, hslash, hplain, rfl⟩)

/-- What is written for a character is one piece of the string, which stands for that character. -/
theorem exists_piece (c : Char) :
    ∃ p, (∀ rest, readPieces (escapeChar c ++ rest) =
        (readPieces rest).map fun x => (p :: x.1, x.2)) ∧
      ∀ ps, join? (p :: ps) = (c :: ·) <$> join? ps := by
  rcases escapeChar_cases c with ⟨e, he, heq⟩ | ⟨hcontrol, heq⟩ | ⟨hquote, hslash, hplain, heq⟩
  · refine ⟨.char c, fun rest => ?_, fun _ => rfl⟩
    rw [heq, List.cons_append, List.singleton_append, readPieces, he]
    · cases readPieces rest <;> rfl
    · rintro a b c' d rest' rfl -
      have hnone : shortEscape? 'u' = none := by decide
      rw [hnone] at he
      cases he
  · refine ⟨.unit c.toNat, fun rest => ?_, join?_control hcontrol⟩
    simp only [heq, List.cons_append, List.nil_append]
    rw [readPieces, hexUnit?_control hcontrol]
    cases readPieces rest <;> rfl
  · refine ⟨.char c, fun rest => ?_, fun _ => rfl⟩
    rw [heq, List.singleton_append, readPieces]
    · rw [if_neg (not_or.mpr ⟨hplain, hslash⟩)]
      cases readPieces rest <;> rfl
    · exact hquote
    · exact fun _ _ _ _ _ h _ => hslash h
    · exact fun _ _ h _ => hslash h

/-- The characters of an escaped string are read back. -/
theorem readPieces_flatMap (cs rest : List Char) :
    ∃ ps, readPieces (cs.flatMap escapeChar ++ '"' :: rest) = some (ps, rest) ∧
      join? ps = some cs := by
  induction cs with
  | nil => exact ⟨[], rfl, rfl⟩
  | cons c cs ih =>
      obtain ⟨ps, hread, hjoin⟩ := ih
      obtain ⟨p, hp, hpjoin⟩ := exists_piece c
      refine ⟨p :: ps, ?_, ?_⟩
      · rw [List.flatMap_cons, List.append_assoc, hp, hread]
        rfl
      · rw [hpjoin, hjoin]
        rfl

/-- A string is written with an opening quote, and behind that it is read back. -/
theorem exists_stringChars (s : Option String) :
    ∃ cs, stringChars s = '"' :: cs ∧ ∀ rest, readString (cs ++ rest) = some (s, rest) := by
  cases s with
  | none =>
      have hunit : hexUnit? 'd' '8' '0' '0' = some 0xD800 := by decide +kernel
      have hjoin : join? [.unit 0xD800] = none := by simp [join?]
      refine ⟨_, rfl, fun rest => ?_⟩
      simp only [List.cons_append, List.nil_append, readString, readPieces, hunit]
      show some ((join? [.unit 0xD800]).map String.ofList, rest) = _
      rw [hjoin]
      rfl
  | some s =>
      refine ⟨s.toList.flatMap escapeChar ++ ['"'], rfl, fun rest => ?_⟩
      obtain ⟨ps, hread, hjoin⟩ := readPieces_flatMap s.toList rest
      rw [List.append_assoc, List.singleton_append, readString, hread]
      show some ((join? ps).map String.ofList, rest) = _
      rw [hjoin, Option.map_some, String.ofList_toList]

/-! ## Documents -/

/-- All number literals of a document are proper. -/
inductive Proper : Json → Prop where
  | null : Proper .null
  | bool (b : Bool) : Proper (.bool b)
  | num {n : Numeral} : n.Proper → Proper (.num n)
  | str (s : Option String) : Proper (.str s)
  | arr {items : List Json} : (∀ j ∈ items, Proper j) → Proper (.arr items)
  | obj {fields : List (Option String × Json)} : (∀ f ∈ fields, Proper f.2) → Proper (.obj fields)

/-- A digit is no blank. -/
theorem isBlank_of_isDigit {c : Char} (h : c.isDigit = true) : isBlank c = false := by
  rw [Bool.eq_false_iff]
  intro hblank
  simp only [isBlank, Bool.or_eq_true, beq_iff_eq] at hblank
  rcases hblank with ((rfl | rfl) | rfl) | rfl <;> exact absurd h (by decide)

/-- Blanks are skipped up to the first other character. -/
theorem skipBlanks_cons {c : Char} (h : isBlank c = false) (cs : List Char) :
    skipBlanks (c :: cs) = c :: cs := by
  rw [skipBlanks, List.dropWhile_cons, h]
  rfl

/-- A document begins with a character that is neither a blank nor a closing bracket. -/
theorem exists_chars_cons (j : Json) :
    ∃ c cs, j.chars = c :: cs ∧ isBlank c = false ∧ c ≠ ']' := by
  cases j with
  | null => exact ⟨_, _, by rw [chars], rfl, by decide⟩
  | bool b => cases b <;> exact ⟨_, _, by rw [chars], rfl, by decide⟩
  | num n =>
      obtain ⟨c, cs, hcs, hc⟩ := n.exists_chars_cons
      refine ⟨c, cs, by rw [chars, hcs], ?_⟩
      rcases hc with rfl | hc
      · exact ⟨rfl, by decide⟩
      · exact ⟨isBlank_of_isDigit hc, fun h => absurd (h ▸ hc) (by decide)⟩
  | str s =>
      obtain ⟨cs, hcs, -⟩ := exists_stringChars s
      exact ⟨_, cs, by rw [chars, hcs], rfl, by decide⟩
  | arr items => exact ⟨_, _, by rw [chars]; rfl, rfl, by decide⟩
  | obj fields => exact ⟨_, _, by rw [chars]; rfl, rfl, by decide⟩

/-- A document begins with no blank. -/
theorem skipBlanks_chars (j : Json) (rest : List Char) :
    skipBlanks (j.chars ++ rest) = j.chars ++ rest := by
  obtain ⟨c, cs, hcs, hblank, -⟩ := j.exists_chars_cons
  rw [hcs, List.cons_append, skipBlanks_cons hblank]

/-- A numeral that is written is read, whatever ends it. -/
theorem readValue_num {n : Numeral} (hn : n.Proper) {rest : List Char} (hr : Ends rest)
    (fuel : Nat) : readValue (fuel + 1) (n.chars ++ rest) = some (.num n, rest) := by
  have hskip := skipBlanks_chars (.num n) rest
  have hread := n.readNumeral_chars hn hr
  obtain ⟨c, cs, hcs, hc⟩ := n.exists_chars_cons
  rw [chars] at hskip
  rw [readValue, hskip]
  rw [hcs, List.cons_append] at hread ⊢
  -- no other document begins with a sign or a digit
  split
  case h_7 => rw [hread]; rfl
  all_goals
    next heq =>
      obtain ⟨rfl, -⟩ := List.cons.inj heq
      exact absurd hc (by decide)

/-- Items are separated by commas. -/
theorem itemChars_cons_cons (item next : Json) (items : List Json) :
    itemChars (item :: next :: items) = item.chars ++ ',' :: itemChars (next :: items) := by
  rw [itemChars]
  exact fun h => List.cons_ne_nil _ _ h

/-- Fields are separated by commas, their keys from their values by colons. -/
theorem fieldChars_cons_cons (key : Option String) (value : Json) (next : Option String × Json)
    (fields : List (Option String × Json)) :
    fieldChars ((key, value) :: next :: fields) =
      stringChars key ++ ':' :: (value.chars ++ ',' :: fieldChars (next :: fields)) := by
  rw [fieldChars, List.append_assoc, List.cons_append]
  exact fun h => List.cons_ne_nil _ _ h

/-- The compact text of a document is read back, in twice as many steps as it has characters. -/
def ReadsBack (j : Json) : Prop :=
  ∀ (fuel : Nat) (rest : List Char), 2 * j.chars.length ≤ fuel → Ends rest →
    readValue fuel (j.chars ++ rest) = some (j, rest)

/-- Items that read back one by one read back as a list. -/
theorem readItems_chars {items : List Json} (h : ∀ j ∈ items, j.ReadsBack) (hne : items ≠ [])
    {fuel : Nat} (hf : 2 * (itemChars items).length < fuel) (rest : List Char) :
    readItems fuel (itemChars items ++ ']' :: rest) = some (items, rest) := by
  induction items generalizing fuel with
  | nil => exact absurd rfl hne
  | cons item items ih =>
      obtain ⟨fuel, rfl⟩ : ∃ k, fuel = k + 1 := ⟨fuel - 1, by omega⟩
      have hitem := h item List.mem_cons_self fuel
      cases items with
      | nil =>
          rw [itemChars] at hf ⊢
          rw [readItems, hitem _ (by omega) (ends_cons (.inr (.inl rfl)) rest)]
          rfl
      | cons next items =>
          rw [itemChars_cons_cons, List.length_append, List.length_cons] at hf
          have hrest := ih (fun j hj => h j (List.mem_cons_of_mem _ hj)) (List.cons_ne_nil _ _)
            (by omega : 2 * (itemChars (next :: items)).length < fuel)
          rw [itemChars_cons_cons, List.append_assoc, List.cons_append, readItems,
            hitem _ (by omega) (ends_cons (.inl rfl) _)]
          show (readItems fuel (itemChars (next :: items) ++ ']' :: rest) >>= _) = _
          rw [hrest]
          rfl

/-- Reading a field, up to what stands behind its value. -/
theorem readFields_cons {key : Option String} {value : Json} (h : value.ReadsBack) {fuel : Nat}
    (hf : 2 * value.chars.length ≤ fuel) {rest : List Char} (hr : Ends rest) :
    readFields (fuel + 1) (stringChars key ++ ':' :: (value.chars ++ rest)) =
      match skipBlanks rest with
      | ',' :: rest => do
        let (fields, rest) ← readFields fuel rest
        return ((key, value) :: fields, rest)
      | '}' :: rest => return ([(key, value)], rest)
      | _ => none := by
  obtain ⟨cs, hcs, hread⟩ := exists_stringChars key
  rw [hcs, List.cons_append, readFields, skipBlanks_cons rfl]
  show (readString (cs ++ ':' :: (value.chars ++ rest)) >>= _) = _
  rw [hread]
  show (readValue fuel (value.chars ++ rest) >>= _) = _
  rw [h fuel rest hf hr]
  rfl

/-- Fields that read back one by one read back as a list. -/
theorem readFields_chars {fields : List (Option String × Json)} (h : ∀ f ∈ fields, f.2.ReadsBack)
    (hne : fields ≠ []) {fuel : Nat} (hf : 2 * (fieldChars fields).length < fuel)
    (rest : List Char) :
    readFields fuel (fieldChars fields ++ '}' :: rest) = some (fields, rest) := by
  induction fields generalizing fuel with
  | nil => exact absurd rfl hne
  | cons field fields ih =>
      obtain ⟨key, value⟩ := field
      obtain ⟨fuel, rfl⟩ : ∃ k, fuel = k + 1 := ⟨fuel - 1, by omega⟩
      have hvalue : value.ReadsBack := h (key, value) List.mem_cons_self
      cases fields with
      | nil =>
          rw [fieldChars, List.length_append, List.length_cons] at hf
          rw [fieldChars, List.append_assoc, List.cons_append,
            readFields_cons hvalue (by omega) (ends_cons (.inr (.inr rfl)) rest)]
          rfl
      | cons next fields =>
          rw [fieldChars_cons_cons] at hf
          simp only [List.length_append, List.length_cons] at hf
          have hrest := ih (fun f hf => h f (List.mem_cons_of_mem _ hf)) (List.cons_ne_nil _ _)
            (by omega : 2 * (fieldChars (next :: fields)).length < fuel)
          rw [fieldChars_cons_cons, List.append_assoc, List.cons_append, List.append_assoc,
            List.cons_append, readFields_cons hvalue (by omega) (ends_cons (.inl rfl) _)]
          show (readFields fuel (fieldChars (next :: fields) ++ '}' :: rest) >>= _) = _
          rw [hrest]
          rfl

/-- Behind an opening bracket stand items, unless the closing bracket does. -/
theorem readValue_bracket {c : Char} (hblank : isBlank c = false) (hne : c ≠ ']') (fuel : Nat)
    (cs : List Char) :
    readValue (fuel + 1) ('[' :: c :: cs) =
      (readItems fuel (c :: cs)).bind fun x => some (.arr x.1, x.2) := by
  rw [readValue, skipBlanks_cons rfl]
  split
  case h_5 rest heq =>
    obtain rfl := (List.cons.inj heq).2
    rw [skipBlanks_cons hblank]
    split
    next heq => exact absurd (List.cons.inj heq).1 hne
    next => rfl
  case h_7 hbracket _ => exact absurd rfl (hbracket (c :: cs))
  -- the other documents start with another character
  all_goals
    next heq => exact absurd (List.cons.inj heq).1 (by decide)

/-- Behind an opening brace stands a quote, unless the closing brace does. -/
theorem readValue_brace (fuel : Nat) (cs : List Char) :
    readValue (fuel + 1) ('{' :: '"' :: cs) =
      (readFields fuel ('"' :: cs)).bind fun x => some (.obj x.1, x.2) := by
  rw [readValue, skipBlanks_cons rfl]
  rfl

/-- Lists of documents that read back read back. -/
theorem readsBack_arr {items : List Json} (h : ∀ j ∈ items, j.ReadsBack) :
    (arr items).ReadsBack := by
  intro fuel rest hf _
  rw [chars] at hf ⊢
  simp only [List.length_append, List.length_cons, List.length_nil] at hf
  obtain ⟨fuel, rfl⟩ : ∃ k, fuel = k + 1 := ⟨fuel - 1, by omega⟩
  rw [List.cons_append, List.cons_append, List.append_assoc, List.singleton_append]
  cases items with
  | nil => rfl
  | cons item items =>
      have hread := readItems_chars h (List.cons_ne_nil _ _)
        (by omega : 2 * (itemChars (item :: items)).length < fuel) rest
      obtain ⟨c, cs, hcs, hblank, hne⟩ : ∃ c cs,
          itemChars (item :: items) = c :: cs ∧ isBlank c = false ∧ c ≠ ']' := by
        obtain ⟨c, cs, hcs, hc⟩ := item.exists_chars_cons
        cases items with
        | nil => exact ⟨c, cs, by rw [itemChars, hcs], hc⟩
        | cons next items => exact ⟨c, _, by rw [itemChars_cons_cons, hcs]; rfl, hc⟩
      rw [hcs, List.cons_append] at hread ⊢
      rw [readValue_bracket hblank hne, hread]
      rfl

/-- Objects of documents that read back read back. -/
theorem readsBack_obj {fields : List (Option String × Json)} (h : ∀ f ∈ fields, f.2.ReadsBack) :
    (obj fields).ReadsBack := by
  intro fuel rest hf _
  rw [chars] at hf ⊢
  simp only [List.length_append, List.length_cons, List.length_nil] at hf
  obtain ⟨fuel, rfl⟩ : ∃ k, fuel = k + 1 := ⟨fuel - 1, by omega⟩
  rw [List.cons_append, List.cons_append, List.append_assoc, List.singleton_append]
  cases fields with
  | nil => rfl
  | cons field fields =>
      have hread := readFields_chars h (List.cons_ne_nil _ _)
        (by omega : 2 * (fieldChars (field :: fields)).length < fuel) rest
      obtain ⟨cs, hcs⟩ : ∃ cs, fieldChars (field :: fields) = '"' :: cs := by
        obtain ⟨cs, hcs, -⟩ := exists_stringChars field.1
        cases fields with
        | nil => exact ⟨_, by rw [fieldChars, hcs]; rfl⟩
        | cons next fields => exact ⟨_, by rw [fieldChars_cons_cons, hcs]; rfl⟩
      rw [hcs, List.cons_append] at hread ⊢
      rw [readValue_brace, hread]
      rfl

/-- A document with proper literals is read back. The induction is over the structure of the
document; each item and each field takes one step of the reader and stands in at least one character. -/
theorem Proper.readsBack {j : Json} (h : j.Proper) : j.ReadsBack := by
  have hfuel : ∀ {j : Json} {fuel : Nat}, 2 * j.chars.length ≤ fuel → ∃ k, fuel = k + 1 := by
    intro j fuel hf
    obtain ⟨c, cs, hcs, -⟩ := j.exists_chars_cons
    rw [hcs, List.length_cons] at hf
    exact ⟨fuel - 1, by omega⟩
  induction h with
  | arr _ ih => exact readsBack_arr ih
  | obj _ ih => exact readsBack_obj ih
  | null =>
      intro fuel rest hf _
      obtain ⟨fuel, rfl⟩ := hfuel hf
      rw [chars]
      rfl
  | bool b =>
      intro fuel rest hf _
      obtain ⟨fuel, rfl⟩ := hfuel hf
      cases b with
      | true => rw [chars]; rfl
      | false => rw [chars]; rfl
  | num hn =>
      intro fuel rest hf hr
      obtain ⟨fuel, rfl⟩ := hfuel hf
      rw [chars]
      exact readValue_num hn hr fuel
  | str s =>
      intro fuel rest hf _
      obtain ⟨fuel, rfl⟩ := hfuel hf
      obtain ⟨cs, hcs, hread⟩ := exists_stringChars s
      rw [chars, hcs, List.cons_append, readValue, skipBlanks_cons rfl]
      show (readString (cs ++ rest) >>= _) = _
      rw [hread]
      rfl

/-- The compact text of a document with proper literals holds that document. -/
theorem Proper.parse?_compact {j : Json} (h : j.Proper) : parse? j.compact = some j := by
  have hread := h.readsBack (2 * j.chars.length + 2) [] (by omega) fun _ hc => nomatch hc
  rw [List.append_nil] at hread
  unfold parse? compact
  rw [String.toList_ofList]
  dsimp only
  rw [hread]
  rfl

end ClosureConversion.Json
