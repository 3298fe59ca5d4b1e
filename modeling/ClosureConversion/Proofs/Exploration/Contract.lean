import ClosureConversion.Proofs.Exploration.Sites

/-!
# What an exploration promises

A step of the exploration takes a classification to a classification. `Progress` says what it has done:
which literals it has judged (known or not), and what it has put on record about which literals and
calls. `Explores` says that a step makes such progress from every state that is fresh for it.

The records are not described under the known functions of the moment. They are described under any
set that agrees with it on the literals visible there. The known functions grow later on, but only by
literals that are not visible at a step already taken, so what was recorded stays right under the
final set. That is what lets steps be chained (`Progress.trans`, `Explores.bind`).
-/

namespace ClosureConversion

/-- The members of one list differ from those of another in name and in record. -/
def Apart (ms ms' : List Member) : Prop :=
  ∀ m ∈ ms, ∀ m' ∈ ms', m.ident ≠ m'.ident ∧ m.id ≠ m'.id

/-- No two members of a list share their name or their record. -/
def Separate (ms : List Member) : Prop := (ms.map (·.ident)).Nodup ∧ (ms.map (·.id)).Nodup

/-- The order of members does not matter. -/
theorem Separate.of_perm {ms ms' : List Member} (hp : ms.Perm ms') (h : Separate ms) :
    Separate ms' :=
  ⟨(hp.map _).nodup_iff.mp h.1, (hp.map _).nodup_iff.mp h.2⟩

/-- Two lists together are separate if each is and they are apart. -/
theorem separate_append {ms ms' : List Member} :
    Separate (ms ++ ms') ↔ Separate ms ∧ Separate ms' ∧ Apart ms ms' := by
  unfold Separate Apart
  simp only [List.map_append, List.nodup_append, List.mem_map]
  constructor
  · rintro ⟨⟨h1, h2, h3⟩, h4, h5, h6⟩
    refine ⟨⟨h1, h4⟩, ⟨h2, h5⟩, fun m hm m' hm' => ⟨?_, ?_⟩⟩
    · exact h3 _ ⟨m, hm, rfl⟩ _ ⟨m', hm', rfl⟩
    · exact h6 _ ⟨m, hm, rfl⟩ _ ⟨m', hm', rfl⟩
  · rintro ⟨⟨h1, h4⟩, ⟨h2, h5⟩, h⟩
    refine ⟨⟨h1, h2, ?_⟩, h4, h5, ?_⟩
    · rintro _ ⟨m, hm, rfl⟩ _ ⟨m', hm', rfl⟩
      exact (h m hm m' hm').1
    · rintro _ ⟨m, hm, rfl⟩ _ ⟨m', hm', rfl⟩
      exact (h m hm m' hm').2

/-- The literals that a step has something on record about. -/
def recorded (pending : List Member) (sites : List Site) : List Member :=
  pending ++ sites.map (·.member)

/-- `c'` is `c` with everything on record about some literals and calls, as `known` has it. The
literals of `pending` are judged but not decided: only their captures are on record. -/
structure Records (known : NameSet) (pending : List Member) (sites : List Site)
    (calls : List (RecordId × Name)) (c c' : Classification) : Prop where
  calls : ∀ id, c'.closureCalls.contains id = true ↔
    c.closureCalls.contains id = true ∨ ∃ callee, (id, callee) ∈ calls ∧ callee ∉ known
  pendingEntry : ∀ m ∈ pending, c'.closures.get? m.ident =
    if m.ident ∈ known then none else some (m.captures known)
  entry : ∀ s ∈ sites, c'.closures.get? s.member.ident = s.entry? known
  otherEntry : ∀ n, (∀ m ∈ recorded pending sites, m.ident ≠ n) →
    c'.closures.get? n = c.closures.get? n
  suffix : ∀ s ∈ sites, c'.suffixes.get? s.member.ident = some (s.suffix known)
  otherSuffix : ∀ n, (∀ s ∈ sites, s.member.ident ≠ n) → c'.suffixes.get? n = c.suffixes.get? n
  decision : ∀ s ∈ sites, c'.decisions.get? s.member.id = some (s.decision known)
  otherDecision : ∀ id, (∀ s ∈ sites, s.member.id ≠ id) →
    c'.decisions.get? id = c.decisions.get? id

namespace Records

variable {known : NameSet} {pending pending' : List Member} {sites sites' : List Site}
  {calls calls' : List (RecordId × Name)} {c c₁ c' : Classification}

/-- Nothing done has nothing on record. -/
theorem refl (known : NameSet) (c : Classification) : Records known [] [] [] c c where
  calls := by simp
  pendingEntry := by simp
  entry := by simp
  otherEntry := fun _ _ => rfl
  suffix := by simp
  otherSuffix := fun _ _ => rfl
  decision := by simp
  otherDecision := fun _ _ => rfl

/-- Records about different literals add up. -/
theorem trans (h : Records known pending sites calls c c₁)
    (h' : Records known pending' sites' calls' c₁ c')
    (ha : Apart (recorded pending sites) (recorded pending' sites')) :
    Records known (pending ++ pending') (sites ++ sites') (calls ++ calls') c c' := by
  have hpend : ∀ m ∈ pending, m ∈ recorded pending sites := fun m hm =>
    List.mem_append_left _ hm
  have hsite : ∀ {p : List Member} {l : List Site}, ∀ s ∈ l, s.member ∈ recorded p l :=
    fun s hs => List.mem_append_right _ (List.mem_map_of_mem hs)
  refine ⟨?_, ?_, ?_, ?_, ?_, ?_, ?_, ?_⟩
  · intro id
    rw [h'.calls, h.calls]
    simp only [List.mem_append]
    constructor
    · rintro ((h | ⟨callee, hm, hk⟩) | ⟨callee, hm, hk⟩)
      · exact .inl h
      · exact .inr ⟨callee, .inl hm, hk⟩
      · exact .inr ⟨callee, .inr hm, hk⟩
    · rintro (h | ⟨callee, hm | hm, hk⟩)
      · exact .inl (.inl h)
      · exact .inl (.inr ⟨callee, hm, hk⟩)
      · exact .inr ⟨callee, hm, hk⟩
  · intro m hm
    rcases List.mem_append.mp hm with hm | hm
    · rw [h'.otherEntry _ fun m' hm' => (ha m (hpend m hm) m' hm').1.symm]
      exact h.pendingEntry m hm
    · exact h'.pendingEntry m hm
  · intro s hs
    rcases List.mem_append.mp hs with hs | hs
    · rw [h'.otherEntry _ fun m' hm' => (ha _ (hsite s hs) m' hm').1.symm]
      exact h.entry s hs
    · exact h'.entry s hs
  · intro n hn
    have hrec : ∀ m, m ∈ recorded pending sites ∨ m ∈ recorded pending' sites' →
        m ∈ recorded (pending ++ pending') (sites ++ sites') := by
      intro m hm
      simp only [recorded, List.map_append, List.mem_append] at hm ⊢
      tauto
    rw [h'.otherEntry n fun m hm => hn m (hrec m (.inr hm)),
      h.otherEntry n fun m hm => hn m (hrec m (.inl hm))]
  · intro s hs
    rcases List.mem_append.mp hs with hs | hs
    · rw [h'.otherSuffix _ fun s' hs' => (ha _ (hsite s hs) _ (hsite s' hs')).1.symm]
      exact h.suffix s hs
    · exact h'.suffix s hs
  · intro n hn
    rw [h'.otherSuffix n fun s hs => hn s (List.mem_append_right _ hs),
      h.otherSuffix n fun s hs => hn s (List.mem_append_left _ hs)]
  · intro s hs
    rcases List.mem_append.mp hs with hs | hs
    · rw [h'.otherDecision _ fun s' hs' => (ha _ (hsite s hs) _ (hsite s' hs')).2.symm]
      exact h.decision s hs
    · exact h'.decision s hs
  · intro id hid
    rw [h'.otherDecision id fun s hs => hid s (List.mem_append_right _ hs),
      h.otherDecision id fun s hs => hid s (List.mem_append_left _ hs)]

/-- Only membership in the lists matters. -/
theorem congr (h : Records known pending sites calls c c') (hp : ∀ m, m ∈ pending' ↔ m ∈ pending)
    (hs : ∀ s, s ∈ sites' ↔ s ∈ sites) (hc : ∀ x, x ∈ calls' ↔ x ∈ calls) :
    Records known pending' sites' calls' c c' := by
  have hrec : ∀ m, m ∈ recorded pending' sites' ↔ m ∈ recorded pending sites := by
    intro m
    simp only [recorded, List.mem_append, List.mem_map, hp, hs]
  refine ⟨?_, ?_, ?_, ?_, ?_, ?_, ?_, ?_⟩
  · intro id
    rw [h.calls]
    simp only [hc]
  · exact fun m hm => h.pendingEntry m ((hp m).mp hm)
  · exact fun s hm => h.entry s ((hs s).mp hm)
  · exact fun n hn => h.otherEntry n fun m hm => hn m ((hrec m).mpr hm)
  · exact fun s hm => h.suffix s ((hs s).mp hm)
  · exact fun n hn => h.otherSuffix n fun s hm => hn s ((hs s).mpr hm)
  · exact fun s hm => h.decision s ((hs s).mp hm)
  · exact fun n hn => h.otherDecision n fun s hm => hn s ((hs s).mpr hm)

/-! Where nothing was on record before, everything on record is about one of the literals and calls. -/

/-- What is decided is decided about a literal, as the known functions have it. -/
theorem exists_site (h : Records known pending sites calls .empty c) {id : RecordId} {d : Decision}
    (hd : c.decisions.get? id = some d) :
    ∃ s ∈ sites, s.member.id = id ∧ d = s.decision known := by
  by_contra hno
  have hother : ∀ s ∈ sites, s.member.id ≠ id := by
    intro s hs hid
    refine hno ⟨s, hs, hid, ?_⟩
    rw [← hid, h.decision s hs] at hd
    exact (Option.some.inj hd).symm
  rw [h.otherDecision id hother] at hd
  cases hd

/-- Suffixes are on record for literals only. -/
theorem exists_site_of_suffix (h : Records known pending sites calls .empty c) {n : Name}
    {names : NameSet} (hn : c.suffixes.get? n = some names) : ∃ s ∈ sites, s.member.ident = n := by
  by_contra hno
  rw [h.otherSuffix n fun s hs he => hno ⟨s, hs, he⟩] at hn
  cases hn

/-- Captures are on record for literals only. -/
theorem exists_member (h : Records known pending sites calls .empty c) {n : Name}
    {captures : List Name} (hn : c.closures.get? n = some captures) :
    ∃ m ∈ recorded pending sites, m.ident = n := by
  by_contra hno
  rw [h.otherEntry n fun m hm he => hno ⟨m, hm, he⟩] at hn
  cases hn

/-- Calls that go through closures are calls of functions that are not known. -/
theorem exists_call (h : Records known pending sites calls .empty c) {id : RecordId}
    (hid : c.closureCalls.contains id = true) : ∃ callee, (id, callee) ∈ calls ∧ callee ∉ known :=
  ((h.calls id).mp hid).resolve_left Bool.false_ne_true

/-- The decision on a name is the one on a literal of that name. -/
theorem exists_decision (h : Records known pending sites calls .empty c) {s : Site} (hs : s ∈ sites) :
    ∃ s' ∈ sites, s'.member.ident = s.member.ident ∧
      c.decision? s.member.ident = some (s'.decision known) := by
  have hvalue : s.decision known ∈ c.decisions.values :=
    Table.mem_values_iff.mpr ⟨_, h.decision s hs⟩
  have hsome : (c.decision? s.member.ident).isSome = true :=
    List.find?_isSome.mpr ⟨_, hvalue, beq_self_eq_true _⟩
  obtain ⟨d, hd⟩ := Option.isSome_iff_exists.mp hsome
  obtain ⟨id, hid⟩ := Table.mem_values_iff.mp (List.mem_of_find?_eq_some hd)
  obtain ⟨s', hs', -, rfl⟩ := h.exists_site hid
  have hname : (s'.member.ident == s.member.ident) = true :=
    List.find?_some (p := fun d : Decision => d.name == s.member.ident) hd
  exact ⟨s', hs', eq_of_beq hname, hd⟩

/-- If no two literals share their name, it is the one on the literal of that name. -/
theorem decision?_eq (h : Records known pending sites calls .empty c)
    (hn : (sites.map (·.member.ident)).Nodup) {s : Site} (hs : s ∈ sites) :
    c.decision? s.member.ident = some (s.decision known) := by
  obtain ⟨s', hs', hident, hd⟩ := h.exists_decision hs
  rwa [List.inj_on_of_nodup_map hn hs' hs hident] at hd

end Records

/-- What a step from `c` to `c'` has done, where the literals of `scope` are visible around it and
`fns` are all literals of the program. -/
structure Progress (optimize : Bool) (fns scope : List Name) (judged pending : List Member)
    (sites : List Site) (calls : List (RecordId × Name)) (c c' : Classification) : Prop where
  /-- Known functions stay known. -/
  keeps : ∀ n ∈ c.known, n ∈ c'.known
  /-- Only judged literals become known. -/
  adds : ∀ n ∈ c'.known, n ∈ c.known ∨ ∃ m ∈ judged, m.ident = n
  /-- A judged literal is known only if it has no free names. -/
  sound : ∀ m ∈ judged, m.Supported c'.known
  /-- The records are right, now and under every later set of known functions. -/
  records : ∀ known : NameSet, (∀ n ∈ known, n ∈ fns) →
    (∀ n ∈ scope, n ∈ known ↔ n ∈ c'.known) →
    (∀ m ∈ judged, m.ident ∈ known ↔ m.ident ∈ c'.known) →
    Records known pending sites calls c c'
  /-- A judged literal is known if any set of functions supports it. -/
  maximal : optimize = true → ∀ known : NameSet, (∀ n ∈ known, n ∈ fns) →
    (∀ m ∈ judged, m.Supported known) → (∀ n ∈ scope, n ∈ known → n ∈ c.known) →
    ∀ m ∈ judged, m.ident ∈ known → m.ident ∈ c'.known

/-- More known functions leave a literal supported, unless it becomes known itself. -/
theorem Member.Supported.mono {m : Member} {known known' : NameSet}
    (hk : ∀ n ∈ known, n ∈ known') (hm : m.ident ∈ known' → m.ident ∈ known)
    (h : m.Supported known) : m.Supported known' := by
  intro hin n hn
  refine h (hm hin) n ?_
  unfold freeNames at hn ⊢
  rw [Code.mem_bodyFreeNames] at hn ⊢
  exact ⟨hn.1.anti hk, hn.2⟩

namespace Progress

variable {optimize : Bool} {fns scope scope' : List Name} {judged judged' pending pending' : List Member}
  {sites sites' : List Site} {calls calls' : List (RecordId × Name)} {c c₁ c' : Classification}

/-- Nothing done is progress without literals. -/
theorem refl (optimize : Bool) (fns scope : List Name) (c : Classification) :
    Progress optimize fns scope [] [] [] [] c c where
  keeps := fun _ h => h
  adds := fun _ h => .inl h
  sound := by simp
  records := fun known _ _ _ => Records.refl known c
  maximal := by simp

/-- A name that a step does not judge has the same standing before and after it. -/
theorem mem_known_iff (h : Progress optimize fns scope judged pending sites calls c c') {n : Name}
    (hn : ∀ m ∈ judged, m.ident ≠ n) : n ∈ c'.known ↔ n ∈ c.known := by
  constructor
  · intro hk
    rcases h.adds n hk with hk | ⟨m, hm, rfl⟩
    · exact hk
    · exact absurd rfl (hn m hm)
  · exact h.keeps n

/-- Two steps one after the other. The second judges nothing that the first judges or that is visible
around it, and sees no more than what was visible before and what the first has judged. -/
theorem trans (h : Progress optimize fns scope judged pending sites calls c c₁)
    (h' : Progress optimize fns scope' judged' pending' sites' calls' c₁ c')
    (ha : Apart (recorded pending sites) (recorded pending' sites'))
    (hj : ∀ m ∈ judged, ∀ m' ∈ judged', m'.ident ≠ m.ident)
    (hs : ∀ n ∈ scope, ∀ m' ∈ judged', m'.ident ≠ n)
    (hsub : ∀ n ∈ scope', n ∈ scope ∨ ∃ m ∈ judged, m.ident = n) :
    Progress optimize fns scope (judged ++ judged') (pending ++ pending') (sites ++ sites')
      (calls ++ calls') c c' := by
  refine ⟨?_, ?_, ?_, ?_, ?_⟩
  · exact fun n hn => h'.keeps n (h.keeps n hn)
  · intro n hn
    rcases h'.adds n hn with hn | ⟨m, hm, rfl⟩
    · rcases h.adds n hn with hn | ⟨m, hm, rfl⟩
      · exact .inl hn
      · exact .inr ⟨m, List.mem_append_left _ hm, rfl⟩
    · exact .inr ⟨m, List.mem_append_right _ hm, rfl⟩
  · intro m hm
    rcases List.mem_append.mp hm with hm | hm
    · exact (h.sound m hm).mono h'.keeps (h'.mem_known_iff (hj m hm)).mp
    · exact h'.sound m hm
  · intro known hfns hscope hknown
    have hfst : ∀ m ∈ judged, m.ident ∈ known ↔ m.ident ∈ c₁.known := by
      intro m hm
      rw [hknown m (List.mem_append_left _ hm), h'.mem_known_iff (hj m hm)]
    refine (h.records known hfns ?_ hfst).trans (h'.records known hfns ?_ ?_) ha
    · intro n hn
      rw [hscope n hn, h'.mem_known_iff (hs n hn)]
    · intro n hn
      rcases hsub n hn with hn | ⟨m, hm, rfl⟩
      · exact hscope n hn
      · exact hknown m (List.mem_append_left _ hm)
    · exact fun m hm => hknown m (List.mem_append_right _ hm)
  · intro hopt known hfns hsup hscope
    have hfst := h.maximal hopt known hfns (fun m hm => hsup m (List.mem_append_left _ hm)) hscope
    intro m hm hk
    rcases List.mem_append.mp hm with hm | hm
    · exact h'.keeps _ (hfst m hm hk)
    · refine h'.maximal hopt known hfns (fun m hm => hsup m (List.mem_append_right _ hm)) ?_ m hm hk
      intro n hn hnk
      rcases hsub n hn with hn | ⟨m, hm, rfl⟩
      · exact h.keeps n (hscope n hn hnk)
      · exact hfst m hm hnk

/-- Only membership in the lists matters. -/
theorem congr (h : Progress optimize fns scope judged pending sites calls c c')
    (hj : ∀ m, m ∈ judged' ↔ m ∈ judged) (hp : ∀ m, m ∈ pending' ↔ m ∈ pending)
    (hs : ∀ s, s ∈ sites' ↔ s ∈ sites) (hc : ∀ x, x ∈ calls' ↔ x ∈ calls) :
    Progress optimize fns scope judged' pending' sites' calls' c c' := by
  refine ⟨h.keeps, ?_, ?_, ?_, ?_⟩
  · intro n hn
    simp only [hj]
    exact h.adds n hn
  · exact fun m hm => h.sound m ((hj m).mp hm)
  · intro known hfns hscope hknown
    exact (h.records known hfns hscope fun m hm => hknown m ((hj m).mpr hm)).congr hp hs hc
  · intro hopt known hfns hsup hscope m hm
    exact h.maximal hopt known hfns (fun m hm => hsup m ((hj m).mpr hm)) hscope m ((hj m).mp hm)

end Progress

/-- Nothing is known or recorded about some literals. -/
def Classification.Fresh (c : Classification) (ms : List Member) : Prop :=
  ∀ m ∈ ms, m.ident ∉ c.known ∧ c.closures.get? m.ident = none

namespace Progress

variable {optimize : Bool} {fns scope : List Name} {judged pending : List Member}
  {sites : List Site} {calls : List (RecordId × Name)} {c c' : Classification}

/-- Only literals of the program become known. -/
theorem known_subset (h : Progress optimize fns scope judged pending sites calls c c')
    (hc : ∀ n ∈ c.known, n ∈ fns) (hj : ∀ m ∈ judged, m.ident ∈ fns) : ∀ n ∈ c'.known, n ∈ fns := by
  intro n hn
  rcases h.adds n hn with hn | ⟨m, hm, rfl⟩
  · exact hc n hn
  · exact hj m hm

/-- A step leaves fresh what it neither judges nor records. -/
theorem fresh (h : Progress optimize fns scope judged pending sites calls c c')
    (hc' : ∀ n ∈ c'.known, n ∈ fns) {ms : List Member} (hms : c.Fresh ms)
    (hj : ∀ m ∈ ms, ∀ m' ∈ judged, m'.ident ≠ m.ident)
    (hr : ∀ m ∈ ms, ∀ m' ∈ recorded pending sites, m'.ident ≠ m.ident) : c'.Fresh ms := by
  intro m hm
  have hrec := h.records c'.known hc' (fun _ _ => Iff.rfl) fun _ _ => Iff.rfl
  refine ⟨?_, ?_⟩
  · rw [h.mem_known_iff (hj m hm)]
    exact (hms m hm).1
  · rw [hrec.otherEntry _ (hr m hm)]
    exact (hms m hm).2

end Progress

/-- A step makes the progress described from every state that is fresh for the literals it judges. -/
def Explores (optimize : Bool) (fns scope : List Name) (judged pending : List Member)
    (sites : List Site) (calls : List (RecordId × Name)) (e : Exploration) : Prop :=
  ∀ c : Classification, (∀ n ∈ c.known, n ∈ fns) → c.Fresh judged →
    Progress optimize fns scope judged pending sites calls c (e c).val

end ClosureConversion
