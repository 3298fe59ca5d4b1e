import ClosureConversion.Proofs.Arena.Edits
import ClosureConversion.Proofs.Arena.Items

/-!
# Following the links

`Arena.Path` lists the records that one meets on the way along the links, up to the first one
without a successor. In an orderly arena every path ends (`Orderly.exists_path`), it climbs, and it is
shorter than the arena (`Path.length_lt`), so that reading a block with bounded fuel reads all of it
(`Orderly.items_eq`). This holds whatever was detached before.

From here on, links are used through a few statements: detaching an item takes it out of its block
(`Orderly.items_detach`), another right-hand side changes the item in its place
(`Orderly.items_setRhs`), behind an item stand the items behind it (`Orderly.listFrom_next`), and no
record stands in two places (`Orderly.eq_of_mem_items`, `Orderly.nodup_ids_items`).
-/

namespace ClosureConversion

namespace Arena

variable {a a' : Arena} {blk : BlockId} {b : Bounds} {id x y z : RecordId} {ids : List RecordId}

/-- The record that so many steps along the links lead to. -/
def follow (a : Arena) : Nat → RecordId → Option RecordId
  | 0, x => some x
  | k + 1, x => (a.next? x).bind (a.follow k)

/-- The records with a successor that are met along the links. -/
inductive Path (a : Arena) : RecordId → List RecordId → Prop where
  | last {x : RecordId} : a.next? x = none → a.Path x []
  | step {x y : RecordId} {ids : List RecordId} :
    a.next? x = some y → a.Path y ids → a.Path x (x :: ids)

namespace Path

/-- A path stays as long as the successors stay. -/
theorem congr (h : a.Path x ids) (hn : ∀ j, a'.next? j = a.next? j) : a'.Path x ids := by
  induction h with
  | last hx => exact .last ((hn _).trans hx)
  | step hx _ ih => exact .step ((hn _).trans hx) ih

/-- Every record of a path but the first one stands behind another record of the path. -/
theorem exists_prev (h : a.Path x ids) (hy : y ∈ ids.tail) : ∃ z ∈ ids, a.next? z = some y := by
  induction h with
  | last => exact absurd hy List.not_mem_nil
  | @step x z ids hx hp ih =>
      cases hp with
      | last => exact absurd hy List.not_mem_nil
      | step hz hp =>
          rcases List.mem_cons.mp hy with rfl | hy
          · exact ⟨x, List.mem_cons_self, hx⟩
          · obtain ⟨w, hw, hwy⟩ := ih hy
            exact ⟨w, List.mem_cons_of_mem _ hw, hwy⟩

/-- A record of a path is the one that the path starts with, or stands behind it. -/
theorem eq_or_mem_tail (h : a.Path x ids) (hy : y ∈ ids) : y = x ∨ y ∈ ids.tail := by
  cases h with
  | last => exact absurd hy List.not_mem_nil
  | step => exact List.mem_cons.mp hy

/-- Every record of a path has a successor. -/
theorem exists_next (h : a.Path x ids) (hy : y ∈ ids) : ∃ z, a.next? y = some z := by
  induction h with
  | last => exact absurd hy List.not_mem_nil
  | step hx _ ih =>
      rcases List.mem_cons.mp hy with rfl | hy
      · exact ⟨_, hx⟩
      · exact ih hy

/-- A path goes on from each of its records. -/
theorem of_append {pre post : List RecordId} (h : a.Path x (pre ++ y :: post)) :
    a.Path y (y :: post) := by
  induction pre generalizing x with
  | nil =>
      cases h with
      | step hx h => exact .step hx h
  | cons w pre ih =>
      cases h with
      | step _ h => exact ih h

/-- A path leads to a record without a successor. -/
theorem follow_length (h : a.Path x ids) :
    ∃ y, a.follow ids.length x = some y ∧ a.next? y = none ∧ (x < a.records.size →
      a.Orderly → y < a.records.size) := by
  induction h with
  | last hx => exact ⟨_, rfl, hx, fun h _ => h⟩
  | step hx _ ih =>
      obtain ⟨y, hy, hnone, hlt⟩ := ih
      refine ⟨y, ?_, hnone, fun _ ho => hlt (ho.next_lt hx) ho⟩
      rw [List.length_cons, follow, hx, Option.bind_some, hy]

/-- In an orderly arena a path climbs. -/
theorem pairwise_lt (h : a.Path x ids) (ho : a.Orderly) :
    ids.Pairwise (· < ·) ∧ ∀ y ∈ ids, x ≤ y := by
  induction h with
  | last => exact ⟨.nil, by simp⟩
  | @step x y ids hx hp ih =>
      obtain ⟨hpair, hle⟩ := ih
      -- behind a bottom sentinel nothing follows
      have hlt : ∀ z ∈ ids, x < z := by
        intro z hz
        rcases ho.forward hx with hxy | hb
        · exact Nat.lt_of_lt_of_le hxy (hle z hz)
        · cases hp with
          | last => exact absurd hz List.not_mem_nil
          | step hy => exact absurd ((ho.next_bottom hb).symm.trans hy) (by simp)
      refine ⟨List.pairwise_cons.mpr ⟨hlt, hpair⟩, fun z hz => ?_⟩
      rcases List.mem_cons.mp hz with rfl | hz
      · exact Nat.le_refl _
      · exact (hlt z hz).le

/-- A path in an orderly arena does not come back. -/
theorem nodup (h : a.Path x ids) (ho : a.Orderly) : ids.Nodup :=
  (h.pairwise_lt ho).1.imp fun hlt => hlt.ne

/-- The records of a path are records of the arena. -/
theorem lt_size (h : a.Path x ids) (hy : y ∈ ids) : y < a.records.size := by
  obtain ⟨z, hz⟩ := h.exists_next hy
  exact lt_size_of_next? hz

/-- A path from a record is shorter than the arena: the record that it leads to is not on it. -/
theorem length_lt (h : a.Path x ids) (ho : a.Orderly) (hx : x < a.records.size) :
    ids.length < a.records.size := by
  obtain ⟨y, -, hnone, hlt⟩ := h.follow_length
  have hfresh : y ∉ ids := fun hy => by
    obtain ⟨z, hz⟩ := h.exists_next hy
    exact absurd (hnone.symm.trans hz) (by simp)
  have hnodup : (y :: ids).Nodup := List.nodup_cons.mpr ⟨hfresh, h.nodup ho⟩
  have hsub : y :: ids ⊆ List.range a.records.size := by
    intro w hw
    rcases List.mem_cons.mp hw with rfl | hw
    · exact List.mem_range.mpr (hlt hx ho)
    · exact List.mem_range.mpr (h.lt_size hw)
  simpa using (List.subperm_of_subset hnodup hsub).length_le

/-- A path in an orderly arena is no longer than the arena. -/
theorem length_le (h : a.Path x ids) (ho : a.Orderly) : ids.length ≤ a.records.size := by
  cases h with
  | last => exact Nat.zero_le _
  | step hx hp => exact ((hp.step hx).length_lt ho (lt_size_of_next? hx)).le

/-- Reading along the links, with enough fuel, reads the path. -/
theorem chain_eq (h : a.Path x ids) {fuel : Nat} (hf : ids.length ≤ fuel) :
    a.chain fuel x = a.rows ids := by
  induction h generalizing fuel with
  | @last x hx =>
      cases fuel with
      | zero => rfl
      | succ fuel =>
          cases hr : a.record? x with
          | none => simp [chain, hr, rows]
          | some r =>
              have hnext : r.next = none := by simpa [next?, hr] using hx
              simp [chain, hr, hnext, rows]
  | @step x y ids hx _ ih =>
      cases fuel with
      | zero => exact absurd hf (Nat.not_succ_le_zero _)
      | succ fuel =>
          obtain ⟨r, hr, hnext⟩ := Option.bind_eq_some_iff.mp hx
          simp only [chain, hr, hnext, rows, List.filterMap_cons, Option.map_some]
          rw [ih (Nat.le_of_succ_le_succ hf)]
          rfl

/-- Detaching a record with a successor takes it out of every path. A path that starts at that record
then starts at its successor. -/
theorem detach (h : a.Path x ids) (ho : a.Orderly) (hz : a.next? id = some z) :
    (a.detach id).Path (if x = id then z else x) (ids.filter (· ≠ id)) := by
  have hn := next?_detach (lt_size_of_next? hz) fun _ hp => ho.prev_lt hp
  induction h with
  | @last x hx =>
      have hne : x ≠ id := by
        rintro rfl
        exact absurd (hx.symm.trans hz) (by simp)
      rw [if_neg hne]
      exact .last (by rw [hn, if_neg hne, if_neg (ho.prev_ne hx id), hx])
  | @step x y ids hx _ ih =>
      by_cases he : x = id
      · subst he
        obtain rfl := Option.some.inj (hx.symm.trans hz)
        rw [ite_self] at ih
        rw [if_pos rfl, List.filter_cons_of_neg (by simp)]
        exact ih
      · rw [if_neg he, List.filter_cons_of_pos (by simpa using he)]
        refine .step ?_ ih
        rw [hn, if_neg he]
        by_cases hy : y = id
        · rw [if_pos (ho.next_iff.mp (hy ▸ hx)), if_pos hy, hz]
        · have hprev : a.prev? id ≠ some x := fun hp =>
            hy (Option.some.inj (hx.symm.trans (ho.next_iff.mpr hp)))
          rw [if_neg hprev, if_neg hy, hx]

end Path

namespace Orderly

/-- Every path ends. The induction is on how many records have a greater number. -/
theorem exists_path (ho : a.Orderly) (x : RecordId) : ∃ ids, a.Path x ids := by
  induction hk : a.records.size - x using Nat.strong_induction_on generalizing x with
  | _ k ih =>
      cases hx : a.next? x with
      | none => exact ⟨[], .last hx⟩
      | some y =>
          rcases ho.forward hx with hlt | hb
          · have hless : a.records.size - y < k :=
              hk ▸ Nat.sub_lt_sub_left (lt_size_of_next? hx) hlt
            obtain ⟨ids, hp⟩ := ih _ hless y rfl
            exact ⟨x :: ids, .step hx hp⟩
          · exact ⟨[x], .step hx (.last (ho.next_bottom hb))⟩

/-- From a record on, one reads the path. -/
theorem listFrom_eq (ho : a.Orderly) (hp : a.Path x ids) : a.listFrom x = a.rows ids :=
  hp.chain_eq (hp.length_le ho)

/-- A block is the path from its top sentinel, without that sentinel. -/
theorem list_eq (ho : a.Orderly) (hb : a.bounds? blk = some b) (hp : a.Path b.top ids) :
    a.list blk = a.rows ids.tail := by
  obtain ⟨r, hr⟩ := exists_record? (ho.lt_size hb).1
  have hfirst : a.first? blk = some ((a.next? b.top).getD b.bottom) := by
    simp [first?, next?, hb, hr]
  rw [list, hfirst]
  cases hp with
  | last htop =>
      rw [htop]
      exact ho.listFrom_eq (.last (ho.next_bottom ⟨blk, b, hb, rfl⟩))
  | step htop hp =>
      rw [htop]
      exact ho.listFrom_eq hp

/-- The items of a block are those along the path from its top sentinel, without that sentinel. -/
theorem items_eq (ho : a.Orderly) (hb : a.bounds? blk = some b) (hp : a.Path b.top ids) :
    a.items blk = ids.tail.filterMap a.item? := by
  rw [items, ho.list_eq hb hp, map_item_rows]

/-- The record of an item has a neighbour on both sides. -/
theorem exists_neighbours (ho : a.Orderly) {i : Item} (hi : i ∈ a.items blk) :
    (∃ y, a.next? i.id = some y) ∧ ∃ x, a.next? x = some i.id := by
  obtain ⟨b, hb⟩ := exists_bounds?_of_mem_items hi
  obtain ⟨ids, hp⟩ := ho.exists_path b.top
  rw [ho.items_eq hb hp] at hi
  obtain ⟨j, hj, hi⟩ := List.mem_filterMap.mp hi
  rw [id_of_item? hi]
  obtain ⟨x, -, hx⟩ := hp.exists_prev hj
  exact ⟨hp.exists_next (List.mem_of_mem_tail hj), x, hx⟩

/-- Paths from the top sentinels of two blocks do not meet behind them. The induction goes back along
the links, to smaller numbers. -/
theorem eq_of_mem_paths (ho : a.Orderly) {blk' : BlockId} {b' : Bounds} {ids' : List RecordId}
    (hb : a.bounds? blk = some b) (hb' : a.bounds? blk' = some b') (hp : a.Path b.top ids)
    (hp' : a.Path b'.top ids') (hy : y ∈ ids.tail) (hy' : y ∈ ids'.tail) : blk = blk' := by
  induction y using Nat.strong_induction_on with
  | _ y ih =>
      have htop : a.prev? b.top = none := ho.prev_top ⟨blk, b, hb, rfl⟩
      have htop' : a.prev? b'.top = none := ho.prev_top ⟨blk', b', hb', rfl⟩
      obtain ⟨z, hz, hzy⟩ := hp.exists_prev hy
      obtain ⟨z', hz', hzy'⟩ := hp'.exists_prev hy'
      obtain rfl : z = z' :=
        Option.some.inj ((ho.next_iff.mp hzy).symm.trans (ho.next_iff.mp hzy'))
      have hlt : z < y := by
        refine (ho.forward hzy).resolve_right fun hbottom => ?_
        obtain ⟨w, hw⟩ := hp.exists_next (List.mem_of_mem_tail hy)
        exact absurd ((ho.next_bottom hbottom).symm.trans hw) (by simp)
      rcases hp.eq_or_mem_tail hz with rfl | hmem
      · rcases hp'.eq_or_mem_tail hz' with heq | hmem'
        · exact ho.eq_of_top_eq hb hb' heq
        · obtain ⟨w, -, hw⟩ := hp'.exists_prev hmem'
          exact absurd (htop.symm.trans (ho.next_iff.mp hw)) (by simp)
      · rcases hp'.eq_or_mem_tail hz' with rfl | hmem'
        · obtain ⟨w, -, hw⟩ := hp.exists_prev hmem
          exact absurd (htop'.symm.trans (ho.next_iff.mp hw)) (by simp)
        · exact ih z hlt hmem hmem'

/-- No record stands in two blocks. -/
theorem eq_of_mem_items (ho : a.Orderly) {blk' : BlockId} {i j : Item} (hi : i ∈ a.items blk)
    (hj : j ∈ a.items blk') (hid : i.id = j.id) : blk = blk' := by
  obtain ⟨b, hb⟩ := exists_bounds?_of_mem_items hi
  obtain ⟨b', hb'⟩ := exists_bounds?_of_mem_items hj
  obtain ⟨ids, hp⟩ := ho.exists_path b.top
  obtain ⟨ids', hp'⟩ := ho.exists_path b'.top
  rw [ho.items_eq hb hp] at hi
  rw [ho.items_eq hb' hp'] at hj
  obtain ⟨x, hx, hxi⟩ := List.mem_filterMap.mp hi
  obtain ⟨y, hy, hyj⟩ := List.mem_filterMap.mp hj
  obtain rfl : x = y := by rw [← id_of_item? hxi, ← id_of_item? hyj, hid]
  exact ho.eq_of_mem_paths hb hb' hp hp' hx hy

/-- No record stands twice in a block. -/
theorem nodup_ids_items (ho : a.Orderly) (blk : BlockId) : ((a.items blk).map (·.id)).Nodup := by
  cases hb : a.bounds? blk with
  | none =>
      rw [items_eq_nil hb]
      exact List.nodup_nil
  | some b =>
      obtain ⟨ids, hp⟩ := ho.exists_path b.top
      have hids : (ids.tail.filterMap a.item?).map (·.id) =
          ids.tail.filter fun j => (a.item? j).isSome := by
        rw [List.map_filterMap, ← List.filterMap_eq_filter]
        refine List.filterMap_congr fun j _ => ?_
        cases hj : a.item? j with
        | none => simp [Option.guard, hj]
        | some i => simp [Option.guard, hj, id_of_item? hj]
      rw [ho.items_eq hb hp, hids]
      exact ((hp.nodup ho).sublist (List.tail_sublist ids)).filter _

/-- Detaching the record of an item takes that item out. -/
theorem items_detach (ho : a.Orderly) {i : Item} (hi : i ∈ a.items blk) (blk' : BlockId) :
    (a.detach i.id).items blk' = (a.items blk').filter (·.id ≠ i.id) := by
  obtain ⟨⟨z, hz⟩, w, hw⟩ := ho.exists_neighbours hi
  have hbs := bounds?_detach a i.id blk'
  cases hb : a.bounds? blk' with
  | none => rw [items_eq_nil hb, items_eq_nil (hbs.trans hb), List.filter_nil]
  | some b =>
      have hne : b.top ≠ i.id := fun he => ho.next_ne (ho.prev_top ⟨blk', b, hb, he⟩) w hw
      obtain ⟨ids, hp⟩ := ho.exists_path b.top
      have hp' := hp.detach ho hz
      rw [if_neg hne] at hp'
      have htail : (ids.filter (· ≠ i.id)).tail = ids.tail.filter (· ≠ i.id) := by
        cases hp with
        | last => rfl
        | step => rw [List.filter_cons_of_pos (by simpa using hne)]; rfl
      rw [(ho.detach i.id).items_eq (hbs.trans hb) hp', ho.items_eq hb hp, htail,
        List.filterMap_filter, List.filter_filterMap]
      refine List.filterMap_congr fun j _ => ?_
      rw [item?_detach]
      cases hj : a.item? j with
      | none => simp
      | some k => simp [id_of_item? hj, Option.filter]

/-- Another right-hand side for a record changes the items of that record. -/
theorem items_setRhs (ho : a.Orderly) (id : RecordId) (rhs : Rhs BlockId) (blk : BlockId) :
    (a.setRhs id rhs).items blk =
      (a.items blk).map fun i => if i.id = id then { i with rhs := rhs } else i := by
  cases hb : a.bounds? blk with
  | none =>
      have hb' : (a.setRhs id rhs).bounds? blk = none := hb
      rw [items_eq_nil hb, items_eq_nil hb', List.map_nil]
  | some b =>
      obtain ⟨ids, hp⟩ := ho.exists_path b.top
      have hp' := hp.congr (next?_setRhs a id rhs)
      rw [(ho.setRhs id rhs).items_eq hb hp', ho.items_eq hb hp, List.map_filterMap]
      refine List.filterMap_congr fun j _ => ?_
      rw [item?_setRhs]
      cases hj : a.item? j with
      | none => simp
      | some k =>
          simp only [Option.map_some, id_of_item? hj]
          split <;> rfl

/-- Behind the record of an item stand the records of the items behind it. -/
theorem listFrom_next (ho : a.Orderly) {i : Item} {pre post : List Item}
    (hi : a.items blk = pre ++ i :: post) :
    ∃ r next r', a.record? i.id = some r ∧ r.item i.id = i ∧ r.next = some next ∧
      a.record? next = some r' ∧ (a.listFrom next).map (fun x => x.2.item x.1) = post := by
  have hmem : i ∈ a.items blk := hi ▸ List.mem_append_right _ List.mem_cons_self
  obtain ⟨b, hb⟩ := exists_bounds?_of_mem_items hmem
  obtain ⟨ids, hp⟩ := ho.exists_path b.top
  rw [ho.items_eq hb hp, List.filterMap_eq_append_iff] at hi
  obtain ⟨xs, ys, hlist, -, hys⟩ := hi
  obtain ⟨xs', id, post', rfl, -, hid, rfl⟩ := List.filterMap_eq_cons_iff.mp hys
  obtain ⟨r, hr, rfl⟩ := Option.map_eq_some_iff.mp hid
  obtain ⟨x, hx⟩ : ∃ x, a.Path x (xs ++ xs' ++ id :: post') := by
    cases hp with
    | last => simp at hlist
    | step _ hp =>
        rw [List.append_assoc, ← hlist]
        exact ⟨_, hp⟩
  cases hx.of_append with
  | step hnext hrest =>
      obtain ⟨r', hr'⟩ := exists_record? (ho.next_lt hnext)
      refine ⟨r, _, r', hr, rfl, ?_, hr', ?_⟩
      · simpa [next?, hr] using hnext
      · rw [ho.listFrom_eq hrest, map_item_rows]

end Orderly

end Arena

end ClosureConversion
