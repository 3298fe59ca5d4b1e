import ClosureConversion.Proofs.Names

/-!
# Conditions on programs

What a front end promises about the names of a nested program, each condition a recursion over the
block.

* `Block.UniqueLiterals`: the name of a function literal is bound nowhere else.
* `Block.CallsInScope`: a call of a function literal stands where that literal is visible. A literal
  is visible in the bodies of its run, its own among them, and in everything behind the run.
* `Block.NamesInScope`: every name that is read is bound where it is read.
* `Block.IsSource`: no closure is constructed and no call is indirect yet.

All four can be evaluated. For unique literals, names in scope give calls in scope
(`Block.NamesInScope.callsInScope`).
-/

namespace ClosureConversion

namespace Operation

/-- The name that a call calls. -/
def callee? : Operation → Option Name
  | .app callee _ _ => some callee
  | _ => none

/-- Whether an operation can stand in a program that is not converted yet. -/
def isSource : Operation → Bool
  | .app _ _ indirect => !indirect
  | .makeClosure .. => false
  | _ => true

/-- Only calls have a callee. -/
theorem callee?_eq_some {o : Operation} {callee : Name} (h : o.callee? = some callee) :
    ∃ args indirect, o = .app callee args indirect := by
  cases o with
  | app callee' args indirect =>
      simp only [callee?, Option.some.injEq] at h
      exact ⟨args, indirect, by rw [h]⟩
  | _ => simp only [callee?, reduceCtorEq] at h

/-- The callee is an operand. -/
theorem callee_mem_operands {o : Operation} {callee : Name} (h : o.callee? = some callee) :
    callee ∈ o.operands := by
  obtain ⟨args, indirect, rfl⟩ := callee?_eq_some h
  exact List.mem_cons_self

end Operation

namespace Block

/-! ## The names of a block -/

/-- The names bound by the function literals that a block begins with. -/
def runNames : Block → List Name
  | .fn ident _ _ rest => ident :: rest.runNames
  | _ => []

/-- The names bound by function literals, at any depth. -/
def literalNames : Block → List Name
  | .done => []
  | .op _ _ rest => rest.literalNames
  | .fn ident _ body rest => ident :: body.literalNames ++ rest.literalNames
  | .branch _ _ yes no rest => yes.literalNames ++ no.literalNames ++ rest.literalNames

/-- The names bound otherwise, at any depth: by other instructions and by parameters. -/
def otherNames : Block → List Name
  | .done => []
  | .op ident _ rest => ident :: rest.otherNames
  | .fn _ params body rest => params ++ body.otherNames ++ rest.otherNames
  | .branch ident _ yes no rest => ident :: yes.otherNames ++ no.otherNames ++ rest.otherNames

/-- All names bound by instructions and parameters, at any depth, once for each binding. -/
def boundNames : Block → List Name
  | .done => []
  | .op ident _ rest => ident :: rest.boundNames
  | .fn ident params body rest => ident :: params ++ body.boundNames ++ rest.boundNames
  | .branch ident _ yes no rest => ident :: yes.boundNames ++ no.boundNames ++ rest.boundNames

/-- All operations, at any depth. -/
def operations : Block → List Operation
  | .done => []
  | .op _ o rest => o :: rest.operations
  | .fn _ _ body rest => body.operations ++ rest.operations
  | .branch _ _ yes no rest => yes.operations ++ no.operations ++ rest.operations

/-! ## The conditions -/

/-- The name of each function literal is bound once, by that literal. -/
def UniqueLiterals (b : Block) : Prop := ∀ f ∈ b.literalNames, b.boundNames.count f = 1

instance (b : Block) : Decidable b.UniqueLiterals :=
  inferInstanceAs (Decidable (∀ f ∈ b.literalNames, b.boundNames.count f = 1))

/-- Every call of one of the literals `fns` stands where that literal is visible; `scope` are the
literals visible around the block. -/
def CallsInScope (fns scope : List Name) : Block → Prop
  | .done => True
  | .op _ o rest =>
    (∀ callee ∈ o.callee?, callee ∈ fns → callee ∈ scope) ∧ rest.CallsInScope fns scope
  | .fn ident _ body rest =>
    body.CallsInScope fns (ident :: rest.runNames ++ scope) ∧
      rest.CallsInScope fns (ident :: rest.runNames ++ scope)
  | .branch _ _ yes no rest =>
    yes.CallsInScope fns scope ∧ no.CallsInScope fns scope ∧ rest.CallsInScope fns scope

/-- Every name that is read is bound at that point: by an earlier instruction of the block or of one
around it, by a parameter of a literal around it, or by a member of the run of such a literal. -/
def NamesInScope (scope : List Name) : Block → Prop
  | .done => True
  | .op ident o rest => (∀ n ∈ o.operands, n ∈ scope) ∧ rest.NamesInScope (ident :: scope)
  | .fn ident params body rest =>
    body.NamesInScope (params ++ ident :: rest.runNames ++ scope) ∧
      rest.NamesInScope (ident :: rest.runNames ++ scope)
  | .branch ident cond yes no rest =>
    cond ∈ scope ∧ yes.NamesInScope scope ∧ no.NamesInScope scope ∧
      rest.NamesInScope (ident :: scope)

/-- No operation of the block is one that conversion introduces. -/
def IsSource (b : Block) : Prop := ∀ o ∈ b.operations, o.isSource = true

instance (b : Block) : Decidable b.IsSource :=
  inferInstanceAs (Decidable (∀ o ∈ b.operations, o.isSource = true))

instance decidableCallsInScope (fns scope : List Name) :
    (b : Block) → Decidable (b.CallsInScope fns scope)
  | .done => isTrue trivial
  | .op _ o rest =>
    have := decidableCallsInScope fns scope rest
    have : Decidable (∀ callee ∈ o.callee?, callee ∈ fns → callee ∈ scope) :=
      match o.callee? with
      | none => isTrue (by simp)
      | some callee =>
        decidable_of_iff (callee ∈ fns → callee ∈ scope) (by simp)
    instDecidableAnd
  | .fn ident _ body rest =>
    have := decidableCallsInScope fns (ident :: rest.runNames ++ scope) body
    have := decidableCallsInScope fns (ident :: rest.runNames ++ scope) rest
    instDecidableAnd
  | .branch _ _ yes no rest =>
    have := decidableCallsInScope fns scope yes
    have := decidableCallsInScope fns scope no
    have := decidableCallsInScope fns scope rest
    inferInstanceAs (Decidable (_ ∧ _ ∧ _))

instance decidableNamesInScope (scope : List Name) :
    (b : Block) → Decidable (b.NamesInScope scope)
  | .done => isTrue trivial
  | .op ident _ rest =>
    have := decidableNamesInScope (ident :: scope) rest
    instDecidableAnd
  | .fn ident params body rest =>
    have := decidableNamesInScope (params ++ ident :: rest.runNames ++ scope) body
    have := decidableNamesInScope (ident :: rest.runNames ++ scope) rest
    instDecidableAnd
  | .branch ident _ yes no rest =>
    have := decidableNamesInScope scope yes
    have := decidableNamesInScope scope no
    have := decidableNamesInScope (ident :: scope) rest
    inferInstanceAs (Decidable (_ ∧ _ ∧ _ ∧ _))

/-! ## Consequences -/

/-- Each binding is one by a literal or another one. -/
theorem count_boundNames (b : Block) (n : Name) :
    b.boundNames.count n = b.literalNames.count n + b.otherNames.count n := by
  induction b with
  | done => rfl
  | op ident o rest ih =>
      simp only [boundNames, literalNames, otherNames, List.count_cons, ih]
      omega
  | fn ident params body rest ihb ih =>
      simp only [boundNames, literalNames, otherNames, List.count_cons, List.count_append,
        List.cons_append, ihb, ih]
      omega
  | branch ident cond yes no rest ihy ihn ih =>
      simp only [boundNames, literalNames, otherNames, List.count_cons, List.count_append,
        List.cons_append, ihy, ihn, ih]
      omega

/-- Unique literals have different names. -/
theorem UniqueLiterals.nodup {b : Block} (h : b.UniqueLiterals) : b.literalNames.Nodup := by
  rw [List.nodup_iff_count_le_one]
  intro n
  by_cases hn : n ∈ b.literalNames
  · have h1 := h n hn
    rw [count_boundNames] at h1
    omega
  · rw [List.count_eq_zero_of_not_mem hn]
    exact Nat.zero_le _

/-- Unique literals share their names with nothing else. -/
theorem UniqueLiterals.not_mem_otherNames {b : Block} (h : b.UniqueLiterals) {f : Name}
    (hf : f ∈ b.literalNames) : f ∉ b.otherNames := by
  intro ho
  have h1 := h f hf
  have h2 := List.count_pos_iff.mpr hf
  have h3 := List.count_pos_iff.mpr ho
  rw [count_boundNames] at h1
  omega

/-- Calls that are in scope stay there when more is in scope. -/
theorem CallsInScope.mono {fns : List Name} {b : Block} {scope scope' : List Name}
    (hs : ∀ n ∈ scope, n ∈ scope') (h : b.CallsInScope fns scope) :
    b.CallsInScope fns scope' := by
  induction b generalizing scope scope' with
  | done => trivial
  | op ident o rest ih =>
      obtain ⟨ho, hr⟩ := h
      exact ⟨fun callee hc hf => hs _ (ho callee hc hf), ih hs hr⟩
  | fn ident params body rest ihb ih =>
      obtain ⟨hb, hr⟩ := h
      have hs' : ∀ n ∈ ident :: rest.runNames ++ scope, n ∈ ident :: rest.runNames ++ scope' := by
        intro n hn
        rcases List.mem_append.mp hn with hn | hn
        · exact List.mem_append_left _ hn
        · exact List.mem_append_right _ (hs n hn)
      exact ⟨ihb hs' hb, ih hs' hr⟩
  | branch ident cond yes no rest ihy ihn ih =>
      obtain ⟨hy, hn, hr⟩ := h
      exact ⟨ihy hs hy, ihn hs hn, ih hs hr⟩

/-- Only the names in scope matter, not their order. -/
theorem callsInScope_congr {fns scope scope' : List Name} (hs : ∀ n, n ∈ scope ↔ n ∈ scope')
    (b : Block) : b.CallsInScope fns scope ↔ b.CallsInScope fns scope' :=
  ⟨CallsInScope.mono fun n => (hs n).mp, CallsInScope.mono fun n => (hs n).mpr⟩

/-- Fewer literals to look for, more calls in scope. -/
theorem CallsInScope.anti {fns fns' scope : List Name} {b : Block} (hf : ∀ n ∈ fns', n ∈ fns)
    (h : b.CallsInScope fns scope) : b.CallsInScope fns' scope := by
  induction b generalizing scope with
  | done => trivial
  | op ident o rest ih => exact ⟨fun callee hc hin => h.1 callee hc (hf callee hin), ih h.2⟩
  | fn ident params body rest ihb ih => exact ⟨ihb h.1, ih h.2⟩
  | branch ident cond yes no rest ihy ihn ih => exact ⟨ihy h.1, ihn h.2.1, ih h.2.2⟩

/-- Where all literals are visible, every call is in scope. -/
theorem CallsInScope.of_subset {fns : List Name} {b : Block} {scope : List Name}
    (hs : ∀ n ∈ fns, n ∈ scope) : b.CallsInScope fns scope := by
  induction b generalizing scope with
  | done => trivial
  | op ident o rest ih => exact ⟨fun callee _ hf => hs callee hf, ih hs⟩
  | fn ident params body rest ihb ih =>
      have hs' : ∀ n ∈ fns, n ∈ ident :: rest.runNames ++ scope := fun n hn =>
        List.mem_append_right _ (hs n hn)
      exact ⟨ihb hs', ih hs'⟩
  | branch ident cond yes no rest ihy ihn ih => exact ⟨ihy hs, ihn hs, ih hs⟩

/-- If only literals bind the names `fns`, reading a name of `fns` in scope means that its literal is
visible. -/
theorem NamesInScope.callsInScope {fns : List Name} {b : Block} {scope visible : List Name}
    (ho : ∀ n ∈ b.otherNames, n ∉ fns) (hs : ∀ n ∈ fns, n ∈ scope → n ∈ visible)
    (h : b.NamesInScope scope) : b.CallsInScope fns visible := by
  induction b generalizing scope visible with
  | done => trivial
  | op ident o rest ih =>
      obtain ⟨hread, hr⟩ := h
      refine ⟨fun callee hc hf => hs _ hf (hread _ (Operation.callee_mem_operands hc)), ?_⟩
      refine ih (fun n hn => ho n (List.mem_cons_of_mem _ hn)) ?_ hr
      intro n hf hn
      rcases List.mem_cons.mp hn with rfl | hn
      · exact absurd hf (ho n List.mem_cons_self)
      · exact hs n hf hn
  | fn ident params body rest ihb ih =>
      obtain ⟨hb, hr⟩ := h
      have hrun : ∀ n ∈ fns, n ∈ ident :: rest.runNames ++ scope →
          n ∈ ident :: rest.runNames ++ visible := by
        intro n hf hn
        rcases List.mem_append.mp hn with hn | hn
        · exact List.mem_append_left _ hn
        · exact List.mem_append_right _ (hs n hf hn)
      simp only [otherNames, List.mem_append] at ho
      refine ⟨ihb (fun n hn => ho n (.inl (.inr hn))) ?_ hb,
        ih (fun n hn => ho n (.inr hn)) hrun hr⟩
      intro n hf hn
      rw [List.append_assoc] at hn
      rcases List.mem_append.mp hn with hn | hn
      · exact absurd hf (ho n (.inl (.inl hn)))
      · exact hrun n hf hn
  | branch ident cond yes no rest ihy ihn ih =>
      obtain ⟨-, hy, hn, hr⟩ := h
      simp only [otherNames, List.cons_append, List.mem_cons, List.mem_append] at ho
      refine ⟨ihy (fun n hn => ho n (.inr (.inl (.inl hn)))) hs hy,
        ihn (fun n hn => ho n (.inr (.inl (.inr hn)))) hs hn,
        ih (fun n hn => ho n (.inr (.inr hn))) ?_ hr⟩
      intro n hf hn
      rcases List.mem_cons.mp hn with rfl | hn
      · exact absurd hf (ho n (.inl rfl))
      · exact hs n hf hn

end Block

namespace Code

/-- The run that code begins with has the names of the block that it stands for. -/
@[simp] theorem runNames_erase (c : Code) : c.erase.runNames = c.runNames := by
  induction c with
  | done => rfl
  | op _ _ _ _ _ => rfl
  | branch _ _ _ _ _ _ _ _ _ _ _ => rfl
  | fn id ident params blk body rest _ ih =>
      simp only [erase, Block.runNames, runNames, ih]

end Code

end ClosureConversion
