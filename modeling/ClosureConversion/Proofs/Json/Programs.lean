import Mathlib.Data.List.Forall2
import ClosureConversion.Ir.Codec
import ClosureConversion.Proofs.Json.Documents

/-!
# Programs read back

The reader accepts several spellings of a program and the writer uses one. Whatever the spelling, the
document written for a program is nested no deeper than the document it was read from was allowed to be
(`Block.nesting_of_decode?`), and a document that is nested no deeper than allowed is read back, if its
doubles are (`Block.decode?_toJson_iff`). `Json.nesting` counts the arrays and objects inside one
another.
-/

namespace ClosureConversion

/-- A traversal succeeds exactly if each step does. -/
theorem mapM_eq_some_iff {α β : Type} {f : α → Option β} {l : List α} {ys : List β} :
    l.mapM f = some ys ↔ List.Forall₂ (fun x y => f x = some y) l ys := by
  induction l generalizing ys with
  | nil =>
      rw [List.forall₂_nil_left_iff]
      exact ⟨fun h => (Option.some.inj h).symm, fun h => congrArg some h.symm⟩
  | cons x l ih =>
      simp only [List.forall₂_cons_left_iff, List.mapM_cons, Option.bind_eq_bind,
        Option.bind_eq_some_iff, Option.pure_def, Option.some.injEq, ih]
      exact ⟨fun ⟨y, hy, ys, hys, h⟩ => ⟨y, ys, hy, hys, h.symm⟩,
        fun ⟨y, ys, hy, hys, h⟩ => ⟨y, hy, ys, hys, h.symm⟩⟩

/-- The literal of an integer denotes it. -/
theorem Numeral.toInt?_ofInt (i : Int) : (Numeral.ofInt i).toInt? = some i := by
  unfold toInt? ofInt
  rw [if_pos ⟨rfl, rfl⟩]
  by_cases hi : i < 0
  · have hne : i.natAbs ≠ 0 := by omega
    simp only [hi, decide_true, if_true, if_neg hne, Option.some.injEq]
    omega
  · simp only [hi, decide_false, Bool.false_eq_true, if_false, Option.some.injEq]
    omega

/-! ## Nesting -/

namespace Json

mutual

/-- How many arrays and objects stand inside one another. -/
def nesting : Json → Nat
  | .arr items => itemNesting items + 1
  | .obj fields => fieldNesting fields + 1
  | .null | .bool _ | .num _ | .str _ => 0

/-- The deepest nesting of items. -/
def itemNesting : List Json → Nat
  | [] => 0
  | item :: rest => max item.nesting (itemNesting rest)

/-- The deepest nesting of fields. -/
def fieldNesting : List (Option String × Json) → Nat
  | [] => 0
  | (_, value) :: rest => max value.nesting (fieldNesting rest)

end

/-- A list is one level deeper than its deepest item. -/
theorem nesting_arr_le_iff {items : List Json} {d : Nat} :
    (arr items).nesting ≤ d + 1 ↔ ∀ j ∈ items, j.nesting ≤ d := by
  rw [nesting, Nat.add_le_add_iff_right]
  induction items with
  | nil => simp [itemNesting]
  | cons item items ih => rw [itemNesting, Nat.max_le, ih, List.forall_mem_cons]

/-- A text has no levels. -/
@[simp] theorem nesting_text (s : String) : (text s).nesting = 0 := by rw [text, nesting]

/-- A list of texts has one level. -/
@[simp] theorem nesting_texts (names : List String) : (texts names).nesting = 1 := by
  have hitems : itemNesting (names.map text) = 0 := by
    induction names with
    | nil => rfl
    | cons name names ih => rw [List.map_cons, itemNesting, nesting_text, ih, Nat.max_self]
  rw [texts, nesting, hitems]

/-- An object is one level deeper than its fields. -/
@[simp] theorem nesting_object (fields : List (String × Json)) :
    (object fields).nesting = fieldNesting (fields.map fun f => (some f.1, f.2)) + 1 := by
  rw [object, nesting]

/-- A variant is one level deeper than its contents. -/
@[simp] theorem nesting_variant (tag : String) (contents : Json) :
    (variant tag contents).nesting = contents.nesting + 1 := by
  rw [variant, nesting_object, List.map_singleton, fieldNesting, fieldNesting, Nat.max_zero]

/-! ## Contents -/

/-- Fields are read from inside of an array or object. -/
theorem pos_of_fields? {names : List String} {depth : Nat} {j : Json} {values : List (Option Json)}
    (h : j.fields? names depth = some values) : 0 < depth := by
  cases depth with
  | zero => cases j <;> cases h
  | succ depth => exact Nat.succ_pos depth

/-- A list is read from inside of an array. -/
theorem pos_of_texts? {depth : Nat} {j : Json} {names : List String}
    (h : j.texts? depth = some names) : 0 < depth := by
  cases depth with
  | zero => cases j <;> cases h
  | succ depth => exact Nat.succ_pos depth

/-- Two fields are found under their names. -/
theorem fields?_two {a b : String} (h : a ≠ b) (x y : Json) (depth : Nat) :
    (object [(a, x), (b, y)]).fields? [a, b] (depth + 1) = some [some x, some y] := by
  simp [fields?, object, h, h.symm]

/-- Three fields are found under their names. -/
theorem fields?_three {a b c : String} (hab : a ≠ b) (hac : a ≠ c) (hbc : b ≠ c) (x y z : Json)
    (depth : Nat) :
    (object [(a, x), (b, y), (c, z)]).fields? [a, b, c] (depth + 1) =
      some [some x, some y, some z] := by
  simp [fields?, object, hab, hac, hbc, hab.symm, hac.symm, hbc.symm]

/-- A text that is written is read. -/
@[simp] theorem text?_text (s : String) : (text s).text? = some s := rfl

/-- A list of texts that is written is read. -/
@[simp] theorem texts?_texts (names : List String) (depth : Nat) :
    (texts names).texts? (depth + 1) = some names := by
  show (names.map text).mapM text? = some names
  rw [mapM_eq_some_iff, List.forall₂_map_left_iff, List.forall₂_same]
  exact fun name _ => text?_text name

/-- A variant without contents is its tag. -/
@[simp] theorem bareVariant?_text (s : String) (depth : Nat) :
    (text s).bareVariant? depth = some s := by
  cases depth <;> rfl

/-- An integer of 64 bits that is written is read. -/
@[simp] theorem int64?_ofInt (i : Int64) : (num (.ofInt i.toInt)).int64? = some i := by
  have hrange : -(Int.pow 2 63) ≤ i.toInt ∧ i.toInt < Int.pow 2 63 := ⟨i.le_toInt, i.toInt_lt⟩
  unfold int64?
  dsimp only
  rw [Numeral.toInt?_ofInt]
  show (if _ then some (Int64.ofInt i.toInt) else none) = some i
  rw [if_pos hrange, Int64.ofInt_toInt]

/-- A natural number below the bound that is written is read. -/
theorem natBelow?_nat {n bound : Nat} (h : n < bound) : (nat n).natBelow? bound = some n := by
  have hrange : 0 ≤ (n : Int) ∧ (n : Int) < bound := ⟨Int.natCast_nonneg n, Int.ofNat_lt.mpr h⟩
  unfold natBelow? nat
  dsimp only
  rw [Numeral.toInt?_ofInt]
  show (if _ then some (n : Int).toNat else none) = some n
  rw [if_pos hrange, Int.toNat_natCast]

end Json

/-! ## Operations -/

/-- The tag of an operator on one value stands for it. -/
@[simp] theorem UnaryOp.ofTag?_tag (op : UnaryOp) : UnaryOp.ofTag? op.tag = some op := by
  cases op <;> decide

/-- The tag of an operator on two values stands for it. -/
@[simp] theorem BinaryOp.ofTag?_tag (op : BinaryOp) : BinaryOp.ofTag? op.tag = some op := by
  cases op <;> decide

/-- The literal written for a double reads back as that double. -/
def Binary64.ReadsBack (x : Binary64) : Prop := (Numeral.ofBinary64 x).toBinary64? = some x

instance (x : Binary64) : Decidable x.ReadsBack :=
  inferInstanceAs (Decidable ((Numeral.ofBinary64 x).toBinary64? = some x))

/-- A variant with contents is read by its tag, one level inside. -/
theorem Rhs.ofJson?_variant {β : Type} (block : Nat → Json → Option β) {tag : String}
    (h : Operation.ofBareTag? tag = none) (depth : Nat) (contents : Json) :
    Rhs.ofJson? block (depth + 1) (.variant tag contents) =
      Rhs.ofVariant? block tag depth contents := by
  simp only [Json.variant, Json.object, List.map_cons, List.map_nil, ofJson?, h]

namespace Operation

/-- How deep the document of an operation is nested. -/
def levels : Operation → Nat
  | .nop | .unit | .makeNone => 0
  | .bool _ | .int _ | .float _ | .str _ | .ref _ | .arrayLength _ | .makeSome _ | .isSome _
  | .derefSome _ | .external _ => 1
  | .unary .. | .binary .. | .tuple _ | .tupleLoad .. | .array .. | .arrayOf _ | .arrayLoad ..
  | .arrayStore .. => 2
  | .app .. | .externalCall .. | .makeClosure .. => 3

/-- The levels of an operation are those of its document. -/
@[simp] theorem nesting_toJson (o : Operation) : o.toJson.nesting = o.levels := by
  cases o <;> simp [toJson, levels, Json.variantOf, Json.fieldNesting, Json.nesting, Json.nat]

/-- The doubles of an operation. -/
def doubles : Operation → List Binary64
  | .float x => [x]
  | _ => []

/-- A bound on the levels of what is read bounds those of what is made of it. -/
theorem levels_of_map {α : Type} {f : α → Operation} {x : Option α} {o : Operation} {d : Nat}
    (h : f <$> x = some o) (hf : ∀ y, x = some y → (f y).levels ≤ d) : o.levels ≤ d := by
  obtain ⟨y, hy, rfl⟩ := Option.map_eq_some_iff.mp h
  exact hf y hy

/-- Whatever the spelling of an operation, there was room for its document. -/
theorem levels_of_ofVariant? {tag : String} {depth : Nat} {j : Json} {o : Operation}
    (h : ofVariant? tag depth j = some o) : o.levels ≤ depth + 1 := by
  have hflat : 1 ≤ depth + 1 := Nat.le_add_left 1 depth
  have hlist : ∀ {names}, j.texts? depth = some names → 2 ≤ depth + 1 :=
    fun hj => Nat.succ_le_succ (Json.pos_of_texts? hj)
  have hfields : ∀ {names values}, j.fields? names depth = some values → 2 ≤ depth + 1 :=
    fun hj => Nat.succ_le_succ (Json.pos_of_fields? hj)
  have hnested : ∀ {j' : Json} {names}, j'.texts? (depth - 1) = some names → 3 ≤ depth + 1 :=
    fun hj => by have := Json.pos_of_texts? hj; omega
  unfold ofVariant? at h
  split at h
  -- the contents are one value, a list of names, or fields, and a field may again be such a list
  case h_1 | h_2 | h_3 | h_4 | h_7 | h_15 | h_16 | h_17 | h_18 | h_19 =>
    exact levels_of_map h fun _ _ => hflat
  case h_9 | h_12 => exact levels_of_map h fun _ => hlist
  case h_22 => cases h
  case h_5 | h_10 | h_11 | h_13 =>
    split at h
    next heq =>
      simp only [Option.bind_eq_bind, Option.bind_eq_some_iff, Option.pure_def,
        Option.some.injEq] at h
      obtain ⟨_, -, _, -, rfl⟩ := h
      exact hfields heq
    next => cases h
  case h_6 | h_14 =>
    split at h
    next heq =>
      simp only [Option.bind_eq_bind, Option.bind_eq_some_iff, Option.pure_def,
        Option.some.injEq] at h
      obtain ⟨_, -, _, -, _, -, rfl⟩ := h
      exact hfields heq
    next => cases h
  case h_8 =>
    split at h
    next callee args indirect heq =>
      -- the flag is read if it is there
      cases indirect with
      | none =>
          simp only [Option.bind_eq_bind, Option.bind_some, Option.bind_eq_some_iff,
            Option.pure_def, Option.some.injEq] at h
          obtain ⟨_, -, _, hargs, rfl⟩ := h
          exact hnested hargs
      | some flag =>
          simp only [Option.bind_eq_bind, Option.bind_eq_some_iff, Option.pure_def,
            Option.some.injEq] at h
          obtain ⟨_, -, _, -, _, hargs, rfl⟩ := h
          exact hnested hargs
    next => cases h
  case h_20 =>
    split at h
    next heq =>
      simp only [Option.bind_eq_bind, Option.bind_eq_some_iff, Option.pure_def,
        Option.some.injEq] at h
      obtain ⟨_, -, _, hargs, rfl⟩ := h
      exact hnested hargs
    next => cases h
  case h_21 =>
    split at h
    next heq =>
      simp only [Option.bind_eq_bind, Option.bind_eq_some_iff, Option.pure_def,
        Option.some.injEq] at h
      obtain ⟨_, hcaptures, _, -, rfl⟩ := h
      exact hnested hcaptures
    next => cases h

/-- An operation is read back if its double is, where there is room for its document. -/
theorem ofJson?_toJson_iff {β : Type} (block : Nat → Json → Option β) {o : Operation} {depth : Nat}
    (hd : o.levels ≤ depth) :
    Rhs.ofJson? block depth o.toJson = some (.op o) ↔ ∀ x ∈ o.doubles, x.ReadsBack := by
  cases o with
  | nop | unit | makeNone => simp [toJson, Json.text, Rhs.ofJson?, ofBareTag?, doubles]
  | float x =>
      obtain ⟨depth, rfl⟩ : ∃ k, depth = k + 1 := Nat.exists_eq_add_of_le' hd
      simp [toJson, Rhs.ofJson?_variant, ofBareTag?, Rhs.ofVariant?, ofVariant?, Json.binary64?,
        doubles, Binary64.ReadsBack]
  | bool | int | str | ref | arrayLength | makeSome | isSome | derefSome | external =>
      obtain ⟨depth, rfl⟩ : ∃ k, depth = k + 1 := Nat.exists_eq_add_of_le' hd
      simp [toJson, Rhs.ofJson?_variant, ofBareTag?, Rhs.ofVariant?, ofVariant?, Json.bool?, doubles]
  | unary | binary | tuple | array | arrayOf | arrayLoad | arrayStore =>
      obtain ⟨depth, rfl⟩ : ∃ k, depth = k + 2 := Nat.exists_eq_add_of_le' hd
      simp [toJson, Json.variantOf, Rhs.ofJson?_variant, ofBareTag?, Rhs.ofVariant?, ofVariant?,
        Json.fields?_two, Json.fields?_three, doubles]
  | tupleLoad source index =>
      obtain ⟨depth, rfl⟩ : ∃ k, depth = k + 2 := Nat.exists_eq_add_of_le' hd
      simp [toJson, Json.variantOf, Rhs.ofJson?_variant, ofBareTag?, Rhs.ofVariant?, ofVariant?,
        Json.fields?_two, Json.natBelow?_nat index.toNat_lt, doubles]
  | app | externalCall | makeClosure =>
      obtain ⟨depth, rfl⟩ : ∃ k, depth = k + 3 := Nat.exists_eq_add_of_le' hd
      simp [toJson, Json.variantOf, Rhs.ofJson?_variant, ofBareTag?, Rhs.ofVariant?, ofVariant?,
        Json.fields?_two, Json.fields?_three, Json.bool?, doubles]

end Operation

/-! ## Right-hand sides -/

namespace Block

/-- The doubles of a block and of the blocks nested in it. -/
def doubles : Block → List Binary64
  | .done => []
  | .op _ o rest => o.doubles ++ rest.doubles
  | .fn _ _ body rest => body.doubles ++ rest.doubles
  | .branch _ _ yes no rest => yes.doubles ++ no.doubles ++ rest.doubles

end Block

namespace Rhs

/-- The doubles of a right-hand side. -/
def doubles : Rhs Block → List Binary64
  | .op o => o.doubles
  | .fn _ body => body.doubles
  | .branch _ yes no => yes.doubles ++ no.doubles

/-- A literal has two levels more than its body. -/
theorem nesting_fn (params : List Name) (body : Block) :
    (Rhs.toJson Block.toJson (.fn params body)).nesting = max 1 body.toJson.nesting + 2 := by
  simp [toJson, Json.variantOf, Json.fieldNesting]

/-- A conditional has two levels more than its blocks. -/
theorem nesting_branch (cond : Name) (yes no : Block) :
    (Rhs.toJson Block.toJson (.branch cond yes no)).nesting =
      max yes.toJson.nesting no.toJson.nesting + 2 := by
  simp [toJson, Json.variantOf, Json.fieldNesting]

variable {block : Nat → Json → Option Block} {depth : Nat} {j : Json} {rhs : Rhs Block}

/-- A right-hand side that is read has no more levels than are allowed. -/
theorem nesting_of_ofVariant? (hblock : ∀ {d j t}, block d j = some t → t.toJson.nesting ≤ d)
    {tag : String} (h : ofVariant? block tag depth j = some rhs) :
    (rhs.toJson Block.toJson).nesting ≤ depth + 1 := by
  unfold ofVariant? at h
  split at h
  · split at h
    next heq =>
      simp only [Option.bind_eq_bind, Option.bind_eq_some_iff, Option.pure_def,
        Option.some.injEq] at h
      obtain ⟨_, hparams, body, hbody, rfl⟩ := h
      have hpos := Json.pos_of_texts? hparams
      have hdepth := hblock hbody
      rw [nesting_fn]
      omega
    next => cases h
  · split at h
    next heq =>
      simp only [Option.bind_eq_bind, Option.bind_eq_some_iff, Option.pure_def,
        Option.some.injEq] at h
      obtain ⟨_, -, yes, hyes, no, hno, rfl⟩ := h
      have hpos := Json.pos_of_fields? heq
      have hdepth := hblock hyes
      have hdepth' := hblock hno
      rw [nesting_branch]
      omega
    next => cases h
  · obtain ⟨o, ho, rfl⟩ := Option.map_eq_some_iff.mp h
    exact (Operation.nesting_toJson o).trans_le (Operation.levels_of_ofVariant? ho)

/-- Whatever the spelling of a right-hand side, there was room for its document. -/
theorem nesting_of_ofJson? (hblock : ∀ {d j t}, block d j = some t → t.toJson.nesting ≤ d)
    (h : ofJson? block depth j = some rhs) : (rhs.toJson Block.toJson).nesting ≤ depth := by
  have hbare : ∀ {tag o}, Operation.ofBareTag? tag = some o → ∀ d, o.toJson.nesting ≤ d := by
    intro tag o ho d
    unfold Operation.ofBareTag? at ho
    split at ho <;> cases ho <;> exact (Operation.nesting_toJson _).trans_le (Nat.zero_le d)
  unfold ofJson? at h
  split at h
  · obtain ⟨o, ho, rfl⟩ := Option.map_eq_some_iff.mp h
    exact hbare ho _
  · split at h
    next ho =>
      obtain rfl := Option.some.inj h
      exact hbare ho _
    · cases h
    · exact nesting_of_ofVariant? hblock h
  · cases h

/-- A right-hand side is read back if its doubles are, where there is room for its document and nested
blocks are read back. -/
theorem ofJson?_toJson_iff
    (hblock : ∀ {t d}, t.toJson.nesting ≤ d → d ≤ depth →
      (block d t.toJson = some t ↔ ∀ x ∈ t.doubles, x.ReadsBack))
    (hd : (rhs.toJson Block.toJson).nesting ≤ depth) :
    ofJson? block depth (rhs.toJson Block.toJson) = some rhs ↔ ∀ x ∈ rhs.doubles, x.ReadsBack := by
  cases rhs with
  | op o => exact Operation.ofJson?_toJson_iff block ((Operation.nesting_toJson o).symm.trans_le hd)
  | fn params body =>
      rw [nesting_fn] at hd
      obtain ⟨depth, rfl⟩ : ∃ k, depth = k + 3 := ⟨depth - 3, by omega⟩
      have hbody := hblock (by omega : body.toJson.nesting ≤ depth + 1) (by omega)
      rw [doubles, ← hbody]
      simp [toJson, Json.variantOf, ofJson?_variant, Operation.ofBareTag?, ofVariant?,
        Json.fields?_two, Option.bind_eq_some_iff]
  | branch cond yes no =>
      rw [nesting_branch] at hd
      obtain ⟨depth, rfl⟩ : ∃ k, depth = k + 2 := ⟨depth - 2, by omega⟩
      have hyes := hblock (by omega : yes.toJson.nesting ≤ depth) (by omega)
      have hno := hblock (by omega : no.toJson.nesting ≤ depth) (by omega)
      rw [doubles, List.forall_mem_append, ← hyes, ← hno]
      simp [toJson, Json.variantOf, ofJson?_variant, Operation.ofBareTag?, ofVariant?,
        Json.fields?_three, Option.bind_eq_some_iff]

end Rhs

/-! ## Blocks -/

namespace Block

/-- The document of an instruction. -/
def entryJson (e : Name × Rhs Block) : Json := .instruction e.1 (e.2.toJson Block.toJson)

/-- The document of a block lists those of its instructions. -/
theorem toJson_eq (t : Block) : t.toJson = .arr (t.toList.map entryJson) := by
  have hitems : t.items = t.toList.map entryJson := by
    induction t with
    | done => rfl
    | op ident o rest ih => rw [items, ih]; rfl
    | fn ident params body rest _ ih => rw [items, ih]; rfl
    | branch ident cond yes no rest _ _ ih => rw [items, ih]; rfl
  rw [toJson, hitems]

/-- An instruction is one level deeper than its right-hand side. -/
theorem nesting_entryJson (e : Name × Rhs Block) :
    (entryJson e).nesting = (e.2.toJson Block.toJson).nesting + 1 := by
  simp [entryJson, Json.instruction, Json.fieldNesting]

/-- The doubles of a block are those of its instructions. -/
theorem mem_doubles_iff {t : Block} {x : Binary64} :
    x ∈ t.doubles ↔ ∃ e ∈ t.toList, x ∈ e.2.doubles := by
  induction t with
  | done => simp [doubles, toList]
  | op ident o rest ih => simp [doubles, toList, Rhs.doubles, ih]
  | fn ident params body rest _ ih => simp [doubles, toList, Rhs.doubles, ih]
  | branch ident cond yes no rest _ _ ih =>
      simp [doubles, toList, Rhs.doubles, ih, or_assoc]

variable {block : Nat → Json → Option Block} {fuel depth : Nat} {j : Json} {t : Block}

/-- An instruction that is read has no more levels than are allowed. -/
theorem nesting_of_instruction? (hblock : ∀ {d j t}, block d j = some t → t.toJson.nesting ≤ d)
    {e : Name × Rhs Block} (h : j.instruction? block depth = some e) :
    (entryJson e).nesting ≤ depth := by
  unfold Json.instruction? at h
  split at h
  next heq =>
    simp only [Option.bind_eq_bind, Option.bind_eq_some_iff, Option.pure_def,
      Option.some.injEq] at h
    obtain ⟨_, -, rhs, hrhs, rfl⟩ := h
    have hpos := Json.pos_of_fields? heq
    have hdepth := Rhs.nesting_of_ofJson? hblock hrhs
    rw [nesting_entryJson]
    exact Nat.add_le_of_le_sub hpos hdepth
  next => cases h

/-- An instruction that is written is read exactly if its doubles are. -/
theorem instruction?_entryJson_iff {e : Name × Rhs Block}
    (hblock : ∀ {t d}, t.toJson.nesting ≤ d → d ≤ depth →
      (block d t.toJson = some t ↔ ∀ x ∈ t.doubles, x.ReadsBack))
    (hd : (entryJson e).nesting ≤ depth) :
    (entryJson e).instruction? block depth = some e ↔ ∀ x ∈ e.2.doubles, x.ReadsBack := by
  rw [nesting_entryJson] at hd
  obtain ⟨depth, rfl⟩ : ∃ k, depth = k + 1 := ⟨depth - 1, by omega⟩
  have hrhs : Rhs.ofJson? block depth (e.2.toJson toJson) = some e.2 ↔
      ∀ x ∈ e.2.doubles, x.ReadsBack :=
    Rhs.ofJson?_toJson_iff (fun ht hk => hblock ht (Nat.le_succ_of_le hk))
      (Nat.le_of_succ_le_succ hd)
  rw [← hrhs]
  simp [entryJson, Json.instruction, Json.instruction?, Json.fields?_two, Option.bind_eq_some_iff,
    Prod.ext_iff]

/-- A list is read as a block if its items are read as the instructions. -/
theorem decode?_arr_eq_some_iff {items : List Json} :
    decode? (fuel + 1) (depth + 1) (.arr items) = some t ↔
      List.Forall₂ (fun j e => j.instruction? (decode? fuel) depth = some e) items t.toList := by
  rw [← mapM_eq_some_iff, decode?]
  constructor
  · intro h
    obtain ⟨entries, hentries, rfl⟩ := Option.map_eq_some_iff.mp h
    rw [hentries, toList_ofList]
  · intro h
    rw [h]
    exact congrArg some (ofList_toList t)

/-- The document of a block is no deeper than those of its instructions allow. -/
theorem toJson_nesting_le_iff :
    t.toJson.nesting ≤ depth + 1 ↔ ∀ e ∈ t.toList, (entryJson e).nesting ≤ depth := by
  rw [toJson_eq, Json.nesting_arr_le_iff, List.forall_mem_map]

/-- Whatever the spelling of a block, there was room for its document. -/
theorem nesting_of_decode? (h : decode? fuel depth j = some t) : t.toJson.nesting ≤ depth := by
  induction fuel generalizing depth j t with
  | zero => cases depth <;> cases j <;> cases h
  | succ fuel ih =>
      cases depth with
      | zero => cases j <;> cases h
      | succ depth =>
          cases j with
          | arr items =>
              have hentries : List.Forall₂ (fun e j => (entryJson e).nesting ≤ depth ∧
                  j.instruction? (decode? fuel) depth = some e) t.toList items :=
                (decode?_arr_eq_some_iff.mp h).flip.imp
                  fun e j hj => ⟨nesting_of_instruction? ih hj, hj⟩
              exact toJson_nesting_le_iff.mpr ((List.forall₂_and_left _ _).mp hentries).1
          | null | bool | num | str | obj => cases h

/-- A block is read back if its doubles are, where there is room for its document. -/
theorem decode?_toJson_iff (hd : t.toJson.nesting ≤ depth) (hf : depth ≤ fuel) :
    decode? fuel depth t.toJson = some t ↔ ∀ x ∈ t.doubles, x.ReadsBack := by
  induction fuel generalizing depth t with
  | zero =>
      rw [toJson_eq, Json.nesting] at hd
      omega
  | succ fuel ih =>
      cases depth with
      | zero =>
          rw [toJson_eq, Json.nesting] at hd
          omega
      | succ depth =>
          have hentries := toJson_nesting_le_iff.mp hd
          have hdepth : depth ≤ fuel := Nat.le_of_succ_le_succ hf
          calc decode? (fuel + 1) (depth + 1) t.toJson = some t
            _ ↔ ∀ e ∈ t.toList, (entryJson e).instruction? (decode? fuel) depth = some e := by
              rw [toJson_eq, decode?_arr_eq_some_iff, List.forall₂_map_left_iff, List.forall₂_same]
            _ ↔ ∀ e ∈ t.toList, ∀ x ∈ e.2.doubles, x.ReadsBack :=
              forall₂_congr fun e he => instruction?_entryJson_iff
                (fun ht hk => ih ht (hk.trans hdepth)) (hentries e he)
            _ ↔ ∀ x ∈ t.doubles, x.ReadsBack := by
              simp only [mem_doubles_iff]
              exact ⟨fun h x ⟨e, he, hx⟩ => h e he x hx, fun h e he x hx => h x ⟨e, he, hx⟩⟩

end Block

/-! ## Programs -/

namespace Json

/-- A text is proper. -/
@[simp] theorem proper_text (s : String) : (text s).Proper := .str (some s)

/-- A list of texts is proper. -/
@[simp] theorem proper_texts (names : List String) : (texts names).Proper :=
  .arr (List.forall_mem_map.mpr fun name _ => proper_text name)

/-- An object is proper if its fields are. -/
@[simp] theorem proper_object {fields : List (String × Json)} :
    (object fields).Proper ↔ ∀ f ∈ fields, f.2.Proper := by
  constructor
  · intro h f hf
    cases h with
    | obj h => exact h _ (List.mem_map_of_mem hf)
  · exact fun h => .obj (List.forall_mem_map.mpr h)

end Json

/-- The document of an operation is proper. -/
theorem Operation.proper_toJson (o : Operation) : o.toJson.Proper := by
  have hint (i : Int) : (Json.num (.ofInt i)).Proper := .num (Numeral.proper_ofInt i)
  have hdouble (x : Binary64) : (Json.num (.ofBinary64 x)).Proper :=
    .num (Numeral.proper_ofBinary64 x)
  cases o <;>
    simp [toJson, Json.variantOf, Json.variant, Json.nat, Json.Proper.bool, hint, hdouble]

namespace Block

/-- The document of a block is proper. -/
theorem proper_toJson (t : Block) : t.toJson.Proper := by
  have hitems : ∀ j ∈ t.items, j.Proper := by
    induction t with
    | done => exact List.forall_mem_nil _
    | op ident o rest ih =>
        rw [items, List.forall_mem_cons]
        exact ⟨by simp [Json.instruction, Operation.proper_toJson], ih⟩
    | fn ident params body rest ihbody ih =>
        rw [items, List.forall_mem_cons]
        exact ⟨by simp [Json.instruction, Rhs.toJson, Json.variantOf, Json.variant,
          Json.Proper.arr ihbody], ih⟩
    | branch ident cond yes no rest ihyes ihno ih =>
        rw [items, List.forall_mem_cons]
        exact ⟨by simp [Json.instruction, Rhs.toJson, Json.variantOf, Json.variant,
          Json.Proper.arr ihyes, Json.Proper.arr ihno], ih⟩
  exact .arr hitems

/-- Whatever text a program was read from, the text written for it keeps to the nesting limit, and it
reads back as the same program exactly if the doubles in it do: nothing but the rounding of a double
literal is ever lost. -/
theorem parse_written_iff {s : String} {t : Block} (h : parse? s = some t) :
    t.toJson.nesting ≤ nestingLimit ∧
      (parse? t.toJson.compact = some t ↔ ∀ x ∈ t.doubles, x.ReadsBack) := by
  obtain ⟨j, -, hj⟩ := Option.bind_eq_some_iff.mp h
  have hlimit : t.toJson.nesting ≤ nestingLimit := nesting_of_decode? hj
  refine ⟨hlimit, ?_⟩
  rw [parse?, (proper_toJson t).parse?_compact]
  exact decode?_toJson_iff hlimit le_rfl

/-- Arrays for objects, a flag left out, a variant with a null, fields out of order and a field that is
skipped: the text written for the program is another one, and it reads back. -/
theorem parse_written_mixed :
    let call : Json := .variant "app" (.object [("args", .texts ["n"]), ("callee", .text "f")])
    let j : Json := .arr
      [.arr [.text "f", .variant "fun" (.arr [.texts ["n"], .arr [.arr [.text "r", call]]])],
        .object [("val", .variant "nop" .null), ("line", .nat 2), ("ident", .text "x")],
        .arr [.text "y", .variant "float" (.num ⟨false, 25, [], some (-1)⟩)]]
    let t : Block := .fn "f" ["n"] (.op "r" (.app "f" ["n"] false) .done)
      (.op "x" .nop (.op "y" (.float ⟨false, 0x4004000000000000, by decide⟩) .done))
    parse? j.compact = some t ∧ t.toJson.compact ≠ j.compact ∧
      t.toJson.nesting ≤ nestingLimit ∧ parse? t.toJson.compact = some t := by
  intro call j t
  have h : parse? j.compact = some t := by decide +kernel
  obtain ⟨hlimit, hiff⟩ := parse_written_iff h
  exact ⟨h, by decide +kernel, hlimit, hiff.mpr (by decide +kernel)⟩

end Block

end ClosureConversion
