import Easy.Net.ConstReads
import Easy.Net.Uses

/-!
`Buffer::writeToFile`, which takes a piece of each node from the cursor on.

The length of a piece is what the chunk size and the remaining size allow, less the offset
in the node. It is right where the remaining size reaches the end of the node, or where
the offset is zero. A smaller rest behind a cursor in the middle of a node is cut short
by the offset, and the loop comes to a null node or to a negative length.
-/

namespace Easy.Net.Buffer

open Lib

variable {b : Buffer}

section Loop

variable {k : ℕ} {ns : List Node}

/-- One round, where the offset is not larger than what may be taken of the node. -/
theorem saveLoop_cons {n : Node} {rest : List Node} {pos r : ℕ} {ws : List (List UInt8)}
    (hn : n.size = k) (hr : 0 < r) (hdiff : pos % k ≤ min k r)
    (hrest : saveLoop k rest (pos + (min k r - pos % k)) (r - (min k r - pos % k)) = .ok ws) :
    saveLoop k (n :: rest) pos r =
      .ok ((n.ptr.drop (pos % k)).take (min k r - pos % k) :: ws) := by
  have hmost : (if k < r then k else r) = min k r := by
    split <;> omega
  have hfit : ¬ k < min k r := by omega
  simp only [saveLoop, hmost, hn, if_neg hr.ne', if_neg hdiff.not_gt, if_neg hfit, hrest]

/-- From a chunk boundary on, the loop saves as much as it is told. -/
theorem saveLoop_aligned (hns : ∀ n ∈ ns, n.size = k) {pos r : ℕ} (hpos : pos % k = 0)
    (hr : r ≤ k * ns.length) :
    ∃ ws, saveLoop k ns pos r = .ok ws ∧ ws.flatten = ((ns.map Node.ptr).flatten).take r := by
  induction ns generalizing pos r with
  | nil =>
      obtain rfl : r = 0 := by simpa using hr
      exact ⟨[], by simp [saveLoop], by simp⟩
  | cons n rest ih =>
      have hn : n.size = k := hns n (by simp)
      have hptr : n.ptr.length = k := by rw [n.length_ptr, hn]
      obtain rfl | hzero := Nat.eq_zero_or_pos r
      · exact ⟨[], by simp [saveLoop], by simp⟩
      simp only [List.length_cons, Nat.mul_succ] at hr
      -- the next round starts at a chunk boundary too, or has nothing to save
      obtain ⟨ws, hsave, hws⟩ : ∃ ws, saveLoop k rest (pos + min k r) (r - min k r) = .ok ws ∧
          ws.flatten = ((rest.map Node.ptr).flatten).take (r - k) := by
        by_cases hbig : k ≤ r
        · rw [Nat.min_eq_left hbig]
          exact ih (fun m hm => hns m (by simp [hm])) (by rw [Nat.add_mod_right, hpos]) (by omega)
        · rw [Nat.min_eq_right (by omega), Nat.sub_self, show r - k = 0 by omega]
          exact ⟨[], by cases rest <;> simp [saveLoop], rfl⟩
      refine ⟨_, saveLoop_cons hn hzero (by omega) (by rwa [hpos]), ?_⟩
      rw [hpos, List.flatten_cons, hws, List.map_cons, List.flatten_cons, List.take_append, hptr,
        List.drop_zero, Nat.sub_zero, Nat.min_comm, ← List.take_take,
        List.take_of_length_le hptr.le]

/-- Behind an offset, the loop saves what the first node has left and goes on at a
chunk boundary, if at least a chunk is to be saved. -/
theorem saveLoop_reaching (hns : ∀ n ∈ ns, n.size = k) {pos r : ℕ} (hk : 0 < k) (hr : k ≤ r)
    (hle : pos % k + r ≤ k * ns.length) :
    ∃ ws, saveLoop k ns pos r = .ok ws ∧
      ws.flatten = ((ns.map Node.ptr).flatten.drop (pos % k)).take r := by
  have hmod := Nat.mod_lt pos hk
  have hmin : min k r = k := Nat.min_eq_left hr
  cases ns with
  | nil =>
      simp only [List.length_nil, Nat.mul_zero] at hle
      omega
  | cons n rest =>
      have hn : n.size = k := hns n (by simp)
      have hptr : n.ptr.length = k := by rw [n.length_ptr, hn]
      simp only [List.length_cons, Nat.mul_succ] at hle
      have hnext : (pos + (k - pos % k)) % k = 0 := by
        have hsplit := Nat.div_add_mod pos k
        rw [show pos + (k - pos % k) = k * (pos / k + 1) by rw [Nat.mul_succ]; omega]
        exact Nat.mul_mod_right ..
      have hrest : ∀ m ∈ rest, m.size = k := fun m hm => hns m (by simp [hm])
      obtain ⟨ws, hsave, hws⟩ := saveLoop_aligned hrest hnext (r := r - (k - pos % k)) (by omega)
      have hdrop : (n.ptr.drop (pos % k)).length = k - pos % k := by rw [List.length_drop, hptr]
      refine ⟨_, saveLoop_cons hn (by omega) (by omega) (by rwa [hmin]), ?_⟩
      rw [hmin, List.flatten_cons, hws, List.map_cons, List.flatten_cons,
        List.drop_append_of_le_length (by omega), List.take_append, hdrop,
        List.take_of_length_le hdrop.le, List.take_of_length_le (l := n.ptr.drop _) (by omega)]

/-- Behind an offset, with less than a chunk to be saved, the loop never succeeds: the
offset and the rest change places in each round, until the offset is the larger one or
the chain ends. -/
theorem saveLoop_short {pos r : ℕ} (hoff : 0 < pos % k) (hr : 0 < r) (hlt : r < k) :
    ∃ e, saveLoop k ns pos r = .error e := by
  induction ns generalizing pos r with
  | nil => exact ⟨.nullNode, by simp [saveLoop, hr.ne']⟩
  | cons n rest ih =>
      have hmod := Nat.mod_lt pos (show 0 < k by omega)
      have hmost : (if k < r then k else r) = r := if_neg (by omega)
      simp only [saveLoop, hmost, if_neg hr.ne']
      by_cases hneg : r < pos % k
      · exact ⟨.overrun, by rw [if_pos hneg]⟩
      · have hnext : (pos + (r - pos % k)) % k = r := by
          have hsplit := Nat.div_add_mod pos k
          rw [show pos + (r - pos % k) = k * (pos / k) + r by omega, Nat.mul_add_mod,
            Nat.mod_eq_of_lt hlt]
        have hoff' : 0 < (pos + (r - pos % k)) % k := by omega
        obtain ⟨e, he⟩ := ih hoff' (r := r - (r - pos % k)) (by omega) (by omega)
        rw [if_neg hneg, he]
        split
        · exact ⟨_, rfl⟩
        · exact ⟨e, rfl⟩

end Loop

/-- The file gets the readable bytes, and the call changes nothing. -/
def Saves (b : Buffer) : Prop :=
  ∃ ws, writeToFile true b = .ok (ws, true) b ∧ ws.flatten = b.content.drop b.position ∧
    toString b = .ok ws.flatten b

/-- Nothing is readable, the cursor stands at a chunk boundary, or at least a chunk is
readable. -/
def Savable (b : Buffer) : Prop :=
  b.readSize = 0 ∨ b.position % b.baseSize = 0 ∨ b.baseSize ≤ b.readSize

/-- Saving is one run of the loop from the node of the cursor. -/
theorem writeToFile_apply (h : b.Wf) (hr : 0 < b.readSize) :
    writeToFile true b =
      match saveLoop b.baseSize (b.chain.drop (b.position / b.baseSize)) b.position b.readSize with
      | .ok ws => .ok (ws, true) b
      | .error e => .error e b := by
  have hsc := h.size_le
  rw [readSize] at hr
  obtain ⟨n, hcur, -, -⟩ := h.node_at (by omega)
  have hne : b.readSize ≠ 0 := by
    rw [readSize]
    omega
  simp only [writeToFile, not_true, if_false, Call.bind_apply, Call.get_apply, if_neg hne,
    remainder_apply h, hcur, Option.elim_some, liftLoop]
  cases saveLoop b.baseSize (b.chain.drop (b.position / b.baseSize)) b.position b.readSize <;> rfl

theorem Wf.saves_nothing (h : b.Wf) (hr : b.readSize = 0) : b.Saves := by
  have hnil : b.content.drop b.position = [] := by
    apply List.drop_eq_nil_of_le
    rw [h.length_content]
    rw [readSize] at hr
    omega
  refine ⟨[], ?_, hnil.symm, ?_⟩
  · simp [writeToFile, hr]
  · rw [toString_eq h, hnil]
    rfl

/-- What the loop saves is right if it is what there is from the cursor on. -/
theorem Wf.saves_of_loop (h : b.Wf) (hr : 0 < b.readSize) {ws : List (List UInt8)}
    (hsave : saveLoop b.baseSize (b.chain.drop (b.position / b.baseSize)) b.position
      b.readSize = .ok ws) (hws : ws.flatten = (b.bytes.drop b.position).take b.readSize) :
    b.Saves := by
  have hread : b.readSize = b.size - b.position := rfl
  have hlen : (b.content.drop b.position).length = b.readSize := by
    rw [List.length_drop, h.length_content, hread]
  rw [slice_content (by omega), List.take_of_length_le hlen.le] at hws
  refine ⟨ws, ?_, hws, ?_⟩
  · rw [writeToFile_apply h hr, hsave]
  · rw [toString_eq h, hws]

/-- The loop saves what there is from the cursor on. -/
theorem Wf.loop_saves (h : b.Wf) (hr : 0 < b.readSize)
    (hs : b.position % b.baseSize = 0 ∨ b.baseSize ≤ b.readSize) :
    ∃ ws, saveLoop b.baseSize (b.chain.drop (b.position / b.baseSize)) b.position b.readSize =
      .ok ws ∧ ws.flatten = (b.bytes.drop b.position).take b.readSize := by
  have hread : b.readSize = b.size - b.position := rfl
  have hsc := h.size_le
  have hsplit := Nat.div_add_mod b.position b.baseSize
  have hroom := h.room_behind (b.position / b.baseSize)
  have hns := h.node_size_drop (b.position / b.baseSize)
  have hbytes := h.bytes_drop (b.position / b.baseSize) (b.position % b.baseSize)
  rw [hsplit] at hbytes
  rcases hs with haligned | hbig
  · have hfit : b.readSize ≤ b.baseSize * (b.chain.drop (b.position / b.baseSize)).length := by
      omega
    obtain ⟨ws, hsave, hws⟩ := saveLoop_aligned hns haligned hfit
    refine ⟨ws, hsave, ?_⟩
    rw [hws, ← hbytes, haligned, List.drop_zero]
  · have hfit : b.position % b.baseSize + b.readSize ≤
        b.baseSize * (b.chain.drop (b.position / b.baseSize)).length := by omega
    obtain ⟨ws, hsave, hws⟩ := saveLoop_reaching hns h.base_pos hbig hfit
    exact ⟨ws, hsave, by rw [hws, hbytes]⟩

/-- **Saving.** The file gets exactly the readable bytes if and only if there are none, or
the cursor stands at a chunk boundary, or a whole chunk is readable. -/
theorem saves_iff (h : uses.Reachable b) (hbase : 1 ≤ b.baseSize) : b.Saves ↔ b.Savable := by
  have hwf := uses_wf h hbase
  obtain hr | hr := Nat.eq_zero_or_pos b.readSize
  · exact ⟨fun _ => .inl hr, fun _ => hwf.saves_nothing hr⟩
  constructor
  · rintro ⟨ws, hsave, -⟩
    by_contra hnot
    simp only [Savable, not_or, not_le] at hnot
    obtain ⟨-, hoff, hshort⟩ := hnot
    have hoff : 0 < b.position % b.baseSize := Nat.pos_of_ne_zero hoff
    obtain ⟨e, he⟩ : ∃ e, saveLoop b.baseSize (b.chain.drop (b.position / b.baseSize))
        b.position b.readSize = .error e := saveLoop_short hoff hr hshort
    rw [writeToFile_apply hwf hr, he] at hsave
    cases hsave
  · rintro (hzero | hs)
    · exact absurd hzero hr.ne'
    · obtain ⟨ws, hsave, hws⟩ := hwf.loop_saves hr hs
      exact hwf.saves_of_loop hr hsave hws

/-- A cursor in the middle of a node, with more than a chunk behind it. -/
theorem saves_reaching :
    ∃ b, uses.Reachable b ∧ b.content = [1, 2, 3, 4, 5] ∧ b.position = 1 ∧
      (b.Saves ↔ b.Savable) := by
  have hrun : (uses.run (new 2 fun _ => 0) [.call (.write [1, 2] fun _ => 0),
      .call (.write [3, 4] fun _ => 0), .call (.write [5] fun _ => 0),
      .call (.setPosition 1)]).map (fun b => (b.baseSize, b.content, b.position)) =
      some (2, [1, 2, 3, 4, 5], 1) := by
    decide
  obtain ⟨b, hr, hb⟩ := (reachable_new 2 fun _ => 0).of_map_run hrun
  obtain ⟨hbase, hcontent, hpos⟩ :
      b.baseSize = 2 ∧ b.content = [1, 2, 3, 4, 5] ∧ b.position = 1 := by simpa using hb
  exact ⟨b, hr, hcontent, hpos, saves_iff hr (by omega)⟩

/-- Three bytes of a chunk of four, and the cursor behind the first of them. -/
theorem saves_false : ∃ b, uses.Reachable b ∧ 1 ≤ b.baseSize ∧ ¬ b.Saves := by
  have hrun : (uses.run (new 4 fun _ => 0) [.call (.write [1, 2, 3] fun _ => 0),
      .call (.setPosition 1)]).map (fun b => (b.baseSize, (writeToFile true).run' b)) =
      some (4, none) := by
    decide
  obtain ⟨b, hr, hb⟩ := (reachable_new 4 fun _ => 0).of_map_run hrun
  obtain ⟨hbase, hsaved⟩ := Prod.mk.inj hb
  refine ⟨b, hr, by omega, ?_⟩
  rintro ⟨ws, hsave, -⟩
  rw [Call.run'_eq_some hsave] at hsaved
  cases hsaved

end Easy.Net.Buffer
