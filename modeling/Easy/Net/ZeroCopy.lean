import Easy.Net.ConstReads
import Easy.Net.Uses

/-!
Receiving into a `Buffer` and reading it without copies.

The receive loop of a server takes `iovec`s for the free space behind the cursor, lets
`readv` store in them, and moves the cursor over what came in and back. Reading goes
three ways, by copy with the cursor, by copy without it and by `iovec`s, and all of them
hand out the same bytes.
-/

namespace Easy.Net.Buffer

open Lib

variable {b : Buffer}

/-- What was stored behind the cursor stands in front of what was readable behind it. -/
theorem drop_overwrite {l : List UInt8} {p : ℕ} (d : List UInt8) (hp : p ≤ l.length) :
    (overwrite l p d).drop p = d ++ l.drop (p + d.length) := by
  have hlen : (l.take p).length = p := List.length_take_of_le hp
  rw [overwrite, List.append_assoc, List.drop_append_of_le_length hlen.ge,
    List.drop_eq_nil_of_le hlen.le, List.nil_append]

/-- **Storing behind the cursor**, and moving the cursor over what was stored and back. -/
theorem Wf.receive (h : b.Wf) {iovs : List Iovec} {len : ℕ}
    (ht : Extent.Tiles b.baseSize b.position (iovs.map Iovec.extent) (b.position + len))
    (hfits : b.position + len ≤ b.capacity) {d : List UInt8} (hd : d.length ≤ len) :
    ∃ b₂, (do fill iovs d
              setPosition (b.position + d.length)
              setPosition b.position : Call Unit) b = .ok () b₂ ∧
      b₂.size = max b.size (b.position + d.length) ∧
      toString b₂ = .ok (d ++ b.content.drop (b.position + d.length)) b₂ := by
  have hps := h.position_le
  have hsc := h.size_le
  obtain ⟨chain, hfill, hwf₁, hbytes⟩ := h.fill_eq ht hfits (d := d) (by omega)
  have hcap : b.position + d.length ≤ b.capacity := by omega
  generalize hb₁ : ({ b with chain := chain } : Buffer) = b₁ at hfill hwf₁ hbytes
  have hpos : b₁.position = b.position := by rw [← hb₁]
  have hsize : b₁.size = b.size := by rw [← hb₁]
  have hcap₁ : b₁.capacity = b.capacity := by rw [← hb₁]
  have hwf₂ := hwf₁.moveTo (v := b.position + d.length) (by omega)
  have hwf₃ := hwf₂.moveTo (v := b.position) (by change b.position ≤ b₁.capacity; omega)
  have hcontent : (b₁.moveTo (b.position + d.length)).content = overwrite b.content b.position d :=
    calc (b₁.moveTo (b.position + d.length)).content
        = b₁.bytes.take (max b₁.size (b.position + d.length)) := rfl
      _ = overwrite b.content b.position d := by
        rw [hbytes, hsize, take_overwrite d hps (h.length_bytes ▸ hsc), content]
  have hback : b.position ≤ (b₁.moveTo (b.position + d.length)).size := by
    change b.position ≤ max b₁.size _
    omega
  refine ⟨(b₁.moveTo (b.position + d.length)).moveTo b.position, ?_, ?_, ?_⟩
  · simp only [Call.bind_apply, hfill, setPosition_eq hwf₁ (hcap.trans hcap₁.ge)]
    exact setPosition_eq hwf₂ (by change b.position ≤ b₁.capacity; omega)
  · change max (max b₁.size _) b.position = _
    omega
  · have hflat := congrArg Flat.content (flat_moveTo hback)
    rw [toString_eq hwf₃]
    congr 1
    calc _ = (b₁.moveTo (b.position + d.length)).content.drop b.position :=
          congrArg (List.drop b.position) hflat
      _ = _ := by rw [hcontent, drop_overwrite d (h.length_content ▸ hps)]

/-- **Zero-copy receive.** `getWriteBuffers` hands out `iovec`s of the `len` bytes behind
the cursor and changes nothing below it or in the content; once `d` is stored through
them, moving the cursor behind `d` and back leaves `d` readable, before what was
readable there. -/
theorem zero_copy_receive (h : uses.Reachable b) (hbase : 1 ≤ b.baseSize) {len : ℕ}
    (hlen : 1 ≤ len) (fresh : ℕ → UInt8) {d : List UInt8} (hd : d.length ≤ len) :
    ∃ iovs b₁, getWriteBuffers len fresh b = .ok (iovs, len) b₁ ∧
      b₁.position = b.position ∧ b₁.size = b.size ∧ b₁.content = b.content ∧
      b₁.Covers iovs b.position (b.position + len) ∧
      ∃ b₂, (do fill iovs d
                setPosition (b.position + d.length)
                setPosition b.position : Call Unit) b₁ = .ok () b₂ ∧
        b₂.size = max b.size (b.position + d.length) ∧
        toString b₂ = .ok (d ++ b.content.drop (b.position + d.length)) b₂ := by
  have hwf := uses_wf h hbase
  obtain ⟨iovs, b₁, hget, g, ht⟩ := getWriteBuffers_tiles hwf hlen fresh
  have hfits : b₁.position + len ≤ b₁.capacity := by
    rw [g.position_eq]
    exact g.fits
  have hreceive := g.wf.receive ht hfits hd
  have hcovers := g.wf.covers ht hfits
  rw [g.position_eq, g.size_eq, g.content_eq] at hreceive
  rw [g.position_eq] at hcovers
  exact ⟨iovs, b₁, hget, g.position_eq, g.size_eq, g.content_eq, hcovers, hreceive⟩

/-- Five bytes received behind a cursor in the middle of the first of two nodes. -/
theorem zero_copy_receive_five :
    ∃ b, uses.run (new 2 fun _ => 0)
        [.call (.write [1, 2] fun _ => 0), .call (.write [3] fun _ => 0),
          .call (.setPosition 1)] = some b ∧
      ∃ iovs b₁, getWriteBuffers 7 (fun _ => 0) b = .ok (iovs, 7) b₁ ∧
        b₁.position = b.position ∧ b₁.size = b.size ∧ b₁.content = b.content ∧
        b₁.Covers iovs b.position (b.position + 7) ∧
        ∃ b₂, (do fill iovs [5, 6, 7, 8, 9]
                  setPosition (b.position + 5)
                  setPosition b.position : Call Unit) b₁ = .ok () b₂ ∧
          b₂.size = max b.size (b.position + 5) ∧
          toString b₂ = .ok ([5, 6, 7, 8, 9] ++ b.content.drop (b.position + 5)) b₂ := by
  obtain ⟨b, hb, hbase⟩ := Option.map_eq_some_iff.mp (show (uses.run (new 2 fun _ => 0)
    [.call (.write [1, 2] fun _ => 0), .call (.write [3] fun _ => 0),
      .call (.setPosition 1)]).map baseSize = some 2 by decide)
  exact ⟨b, hb, zero_copy_receive ((reachable_new 2 _).of_run hb) (by omega) (by decide)
    (fun _ => 0) (d := [5, 6, 7, 8, 9]) (by decide)⟩

/-- **The three ways of reading.** They hand out the same bytes, those of the content at
the cursor; `read` moves the cursor and does nothing else, and the other two
change nothing. -/
theorem reads_agree (h : uses.Reachable b) (hbase : 1 ≤ b.baseSize) (hread : 1 ≤ b.readSize)
    {len : ℕ} (hlen : 1 ≤ len) :
    ∃ iovs s position cur,
      getReadBuffers len b = .ok (iovs, min len b.readSize) b ∧
      b.Covers iovs b.position (b.position + min len b.readSize) ∧
      iovs.flatMap (Iovec.bytes b) = (b.content.drop b.position).take (min len b.readSize) ∧
      toString b = .ok s b ∧
      s.take (min len b.readSize) = (b.content.drop b.position).take (min len b.readSize) ∧
      read (min len b.readSize) b =
        .ok ((b.content.drop b.position).take (min len b.readSize))
          { b with position := position, cur := cur } ∧
      position = b.position + min len b.readSize := by
  have hwf := uses_wf h hbase
  have hps := hwf.position_le
  have hsc := hwf.size_le
  have hle : b.position + min len b.readSize ≤ b.size := by
    rw [readSize]
    omega
  obtain ⟨iovs, hget, ht⟩ := getReadBuffers_eq hwf len
  have hbytes := hwf.bytes_tiled ht (by omega)
  rw [Nat.add_sub_cancel_left, slice_content hle] at hbytes
  refine ⟨iovs, _, _, b.curAt (b.position + min len b.readSize), hget,
    hwf.covers ht (by omega), hbytes, toString_eq hwf, rfl, ?_, rfl⟩
  rw [read_eq hwf (by omega) (Nat.min_le_right ..), moveTo, Nat.max_eq_left hle]

/-- Reads that end on the end of the chain, from the middle of its first node. -/
theorem reads_agree_three :
    ∃ b, uses.run (new 2 fun _ => 0)
        [.call (.write [1, 2] fun _ => 0), .call (.write [3, 4] fun _ => 0),
          .call (.setPosition 1)] = some b ∧
      ∃ iovs s position cur,
        getReadBuffers 9 b = .ok (iovs, min 9 b.readSize) b ∧
        b.Covers iovs b.position (b.position + min 9 b.readSize) ∧
        iovs.flatMap (Iovec.bytes b) = (b.content.drop b.position).take (min 9 b.readSize) ∧
        toString b = .ok s b ∧
        s.take (min 9 b.readSize) = (b.content.drop b.position).take (min 9 b.readSize) ∧
        read (min 9 b.readSize) b =
          .ok ((b.content.drop b.position).take (min 9 b.readSize))
            { b with position := position, cur := cur } ∧
        position = b.position + min 9 b.readSize := by
  obtain ⟨b, hb, hfields⟩ := Option.map_eq_some_iff.mp (show (uses.run (new 2 fun _ => 0)
    [.call (.write [1, 2] fun _ => 0), .call (.write [3, 4] fun _ => 0),
      .call (.setPosition 1)]).map (fun b => (b.baseSize, b.readSize)) = some (2, 3) by decide)
  obtain ⟨hbase, hread⟩ := Prod.mk.inj hfields
  exact ⟨b, hb, reads_agree ((reachable_new 2 _).of_run hb) (by omega) (by omega)
    (by decide)⟩

end Easy.Net.Buffer
