import Easy.Net.Varints

/-!
What a typed read that throws leaves behind.

`read` looks at the number of readable bytes before it copies any, so a failed one changes
nothing. A varint and a string are read by several calls of it, and nothing takes back
those that have succeeded when a later one throws: the cursor stays behind them. It is all
that has moved, and `setPosition` brings it back.
-/

namespace Easy.Net

/-- `readFint8`, ..., `readDouble` -/
def FixedKind.call (host : Endian) : (k : FixedKind) → Call (BitVec (8 * k.size))
  | fint8 => Buffer.readFint8 host
  | fuint8 => Buffer.readFuint8 host
  | fint16 => Buffer.readFint16 host
  | fuint16 => Buffer.readFuint16 host
  | fint32 => Buffer.readFint32 host
  | fuint32 => Buffer.readFuint32 host
  | fint64 => Buffer.readFint64 host
  | fuint64 => Buffer.readFuint64 host
  | float => Buffer.readFloat host
  | double => Buffer.readDouble host

namespace Buffer

variable {α β : Type} {b b' : Buffer} {host : Endian} {n : ℕ}

/-- The typed reads. -/
inductive TypedRead
  | fixed (k : FixedKind)
  | uint32
  | uint64
  | int32
  | int64
  | string (fmt : StringFormat)
  deriving DecidableEq, Repr

namespace TypedRead

abbrev Val : TypedRead → Type
  | fixed k => BitVec (8 * k.size)
  | uint32 | int32 => BitVec 32
  | uint64 | int64 => BitVec 64
  | string _ => StdString

def call (host : Endian) : (k : TypedRead) → Call k.Val
  | fixed k => k.call host
  | uint32 => readUint32 host
  | uint64 => readUint64 host
  | int32 => readInt32 host
  | int64 => readInt64 host
  | string fmt => fmt.read host

end TypedRead

/-! ### One call that throws -/

/-- If the call throws, then with the cursor at `v` and nothing else changed. -/
def ThrowsAt (b : Buffer) (c : Call α) (v : ℕ) : Prop :=
  ∀ b', c b = .error .outOfRange b' → b' = b.moveTo v

theorem ThrowsAt.bind {c : Call α} {f : α → Call β} {v : ℕ} (h : b.ThrowsAt c v)
    (h' : ∀ a b₁, c b = .ok a b₁ → ∀ b', f a b₁ = .error .outOfRange b' → b' = b.moveTo v) :
    b.ThrowsAt (c >>= f) v := by
  intro b' hthrow
  rcases Call.bind_eq_error hthrow with hc | ⟨a, b₁, hc, hf⟩
  · exact h b' hc
  · exact h' a b₁ hc b' hf

theorem ThrowsAt.map {c : Call α} {v : ℕ} (h : b.ThrowsAt c v) (f : α → β) :
    b.ThrowsAt (f <$> c) v := by
  have hmap : f <$> c = c >>= fun a => Pure.pure (f a) := rfl
  rw [hmap]
  refine h.bind fun a b₁ _ b' hpure => ?_
  cases hpure

/-- **A raw read** that throws changes nothing. -/
theorem Wf.throwsAt_read (h : b.Wf) (n : ℕ) : b.ThrowsAt (read n) b.position := by
  intro b' hthrow
  rw [moveTo_position h]
  by_cases hn : b.readSize < n
  · rw [read_throws hn] at hthrow
    cases hthrow
    rfl
  · obtain rfl | hpos := Nat.eq_zero_or_pos n
    · rw [h.read_zero] at hthrow
      split at hthrow
      · cases hthrow
      · cases hthrow
    · rw [read_eq h hpos (Nat.le_of_not_lt hn)] at hthrow
      cases hthrow

theorem Wf.throwsAt_readFixed (h : b.Wf) (host : Endian) (n : ℕ) :
    b.ThrowsAt (readFixed host n) b.position := by
  refine ThrowsAt.bind ((h.throwsAt_read n).map _) fun v b₁ _ b' hrest => ?_
  cases hrest

theorem Wf.throwsAt_fixed (h : b.Wf) (host : Endian) (k : FixedKind) :
    b.ThrowsAt (k.call host) b.position := by
  cases k with
  | fint8 | fuint8 => exact (h.throwsAt_read 1).map _
  | fint16 | fuint16 => exact h.throwsAt_readFixed host 2
  | fint32 | fuint32 | float => exact h.throwsAt_readFixed host 4
  | fint64 | fuint64 | double => exact h.throwsAt_readFixed host 8

theorem Wf.throwsAt_readData (h : b.Wf) (len : BitVec 64) :
    b.ThrowsAt (readData len) b.position := by
  refine ThrowsAt.bind (h.throwsAt_read _) fun bs b₁ _ b' hrest => ?_
  cases hrest

theorem Wf.readFuint8_cases (h : b.Wf) (host : Endian) :
    b.position = b.size ∧ readFuint8 host b = .error .outOfRange b ∨
      b.position < b.size ∧ ∃ c, readFuint8 host b = .ok c (b.moveTo (b.position + 1)) := by
  have hps := h.position_le
  have hmap : readFuint8 host = read 1 >>= fun bs => Pure.pure (host.value 1 bs) := rfl
  rcases hps.eq_or_lt with heq | hlt
  · refine .inl ⟨heq, ?_⟩
    rw [hmap, Call.bind_apply, read_throws (by rw [readSize]; omega)]
  · refine .inr ⟨hlt, host.value 1 ((b.content.drop b.position).take 1), ?_⟩
    rw [hmap, Call.bind_apply, read_eq h (by decide) (by rw [readSize]; omega)]
    rfl

/-- **A varint** that is cut short takes all the bytes there are. -/
theorem Wf.throwsAt_readVarint {w : ℕ} (h : b.Wf) (host : Endian) (i : ℕ) (result : BitVec w) :
    b.ThrowsAt (readVarint host i result) b.size := by
  induction hi : w - i using Nat.strong_induction_on generalizing i result b with
  | _ m ih =>
      rw [readVarint]
      split
      case isTrue hlt =>
        rcases h.readFuint8_cases host with ⟨hend, hbyte⟩ | ⟨hmore, c, hbyte⟩
        · intro b' hthrow
          rw [Call.bind_apply, hbyte] at hthrow
          cases hthrow
          rw [← hend, moveTo_position h]
        · intro b' hthrow
          simp only [Call.bind_apply, hbyte] at hthrow
          have hle : b.position + 1 ≤ b.size := hmore
          have hsize : (b.moveTo (b.position + 1)).size = b.size := Nat.max_eq_left hle
          split at hthrow
          · cases hthrow
          · have hwf := h.moveTo (hle.trans h.size_le)
            have hrest := ih (w - (i + 7)) (by omega) hwf (i + 7) _ rfl b' hthrow
            rwa [hsize, moveTo_moveTo hle] at hrest
      case isFalse =>
        intro b' hthrow
        cases hthrow

theorem Wf.throwsAt_length (h : b.Wf) (host : Endian) (fmt : StringFormat) :
    b.ThrowsAt (fmt.readLength host) (if fmt = .vint then b.size else b.position) := by
  cases fmt with
  | f16 => exact (h.throwsAt_readFixed host 2).map _
  | f32 => exact (h.throwsAt_readFixed host 4).map _
  | f64 => exact h.throwsAt_readFixed host 8
  | vint => exact h.throwsAt_readVarint host 0 0

/-! ### All of them -/

/-- Where the cursor is after a read that throws. -/
def TypedRead.leftAt (host : Endian) (b : Buffer) : TypedRead → ℕ
  | .fixed _ => b.position
  | .uint32 | .uint64 | .int32 | .int64 => b.size
  | .string fmt =>
    match fmt.length b.endian host (b.content.drop b.position) with
    | some (_, rest) => b.size - rest.length
    | none => if fmt = .vint then b.size else b.position

theorem Wf.throwsAt_string (h : b.Wf) (host : Endian) (fmt : StringFormat) :
    b.ThrowsAt (fmt.read host) (TypedRead.leftAt host b (.string fmt)) := by
  obtain ⟨v, hpv, hv, hlength⟩ := fmt.follows_readLength host b h rfl
  intro b' hthrow
  rw [fmt.read_eq] at hthrow
  rw [TypedRead.leftAt]
  cases hparse : fmt.length b.endian host (b.content.drop b.position) with
  | none =>
      rw [hparse] at hlength
      rw [Call.bind_apply, hlength] at hthrow
      cases hthrow
      exact h.throwsAt_length host fmt _ hlength
  | some r =>
      obtain ⟨len, rest⟩ := r
      rw [hparse] at hlength
      obtain ⟨rfl, hlength⟩ := hlength
      rw [Call.bind_apply, hlength] at hthrow
      have hdata := (h.moveTo (hv.trans h.size_le)).throwsAt_readData len b' hthrow
      have hend : b.size - (b.content.drop v).length = v := by
        rw [List.length_drop, h.length_content]
        omega
      rwa [show (b.moveTo v).position = v from rfl, moveTo_moveTo hv, ← hend] at hdata

theorem Wf.throwsAt_call (h : b.Wf) (host : Endian) (k : TypedRead) :
    b.ThrowsAt (k.call host) (k.leftAt host b) := by
  cases k with
  | fixed k => exact h.throwsAt_fixed host k
  | uint32 | uint64 => exact h.throwsAt_readVarint host 0 0
  | int32 | int64 => exact (h.throwsAt_readVarint host 0 0).map _
  | string fmt => exact h.throwsAt_string host fmt

theorem Wf.leftAt_le (h : b.Wf) (host : Endian) (k : TypedRead) : k.leftAt host b ≤ b.size := by
  have hps := h.position_le
  cases k with
  | fixed k => exact hps
  | string fmt =>
      rw [TypedRead.leftAt]
      split
      · exact Nat.sub_le ..
      · split
        · exact le_rfl
        · exact hps
  | _ => exact le_rfl

/-- **A typed read that throws** moves the cursor at most, and `setPosition` undoes that.
So nothing is consumed exactly where the cursor has not moved. -/
theorem failed_read (h : uses.Reachable b) (hbase : 1 ≤ b.baseSize) (host : Endian) (k : TypedRead)
    (hthrow : k.call host b = .error .outOfRange b') :
    b'.content = b.content ∧ b'.size = b.size ∧ b'.capacity = b.capacity ∧
      b'.position = k.leftAt host b ∧ setPosition b.position b' = .ok () b ∧
      (b' = b ↔ k.leftAt host b = b.position) := by
  have hwf : b.Wf := by
    rcases reachable_sound h with hwf | hhollow
    · exact hwf
    · rw [hhollow.baseSize_eq] at hbase
      cases hbase
  have hleft := hwf.leftAt_le host k
  have hcap := hleft.trans hwf.size_le
  obtain rfl := hwf.throwsAt_call host k b' hthrow
  refine ⟨content_moveTo hleft, Nat.max_eq_left hleft, rfl, rfl, ?_, fun heq => ?_, fun heq => ?_⟩
  · rw [setPosition_eq (hwf.moveTo hcap) (hwf.position_le.trans hwf.size_le), moveTo_moveTo hleft,
      moveTo_position hwf]
  · exact congrArg Buffer.position heq
  · rw [heq, moveTo_position hwf]

/-- The cursor after a call that throws. -/
def thrownAt (b : Buffer) (c : Call α) : Option ℕ :=
  match c b with
  | .error .outOfRange b' => some b'.position
  | _ => none

theorem thrownAt_eq_some {c : Call α} {v : ℕ} (h : b.thrownAt c = some v) :
    ∃ b', c b = .error .outOfRange b' ∧ b'.position = v := by
  rw [thrownAt] at h
  split at h
  case h_1 b' he => exact ⟨b', he, Option.some.inj h⟩
  case h_2 => cases h

/-- A string of five bytes of which only the length has arrived. -/
theorem readStringF16_cut_short :
    ∃ b, uses.Reachable b ∧ b.baseSize = 4 ∧ b.content = [0, 5] ∧ b.position = 0 ∧
      ∃ b', (TypedRead.string .f16).call .little b = .error .outOfRange b' ∧ b'.position = 2 := by
  have hrun : (uses.run (new 4 fun _ => 0) [.call (.write [0, 5] fun _ => 0),
      .call (.setPosition 0)]).map (fun b => (b.baseSize, b.content, b.position,
        b.thrownAt ((TypedRead.string .f16).call .little))) = some (4, [0, 5], 0, some 2) := by
    decide
  obtain ⟨b, hr, hb⟩ := (reachable_new 4 fun _ => 0).of_map_run hrun
  obtain ⟨hbase, hcontent, hpos, hthrown⟩ : b.baseSize = 4 ∧ b.content = [0, 5] ∧ b.position = 0 ∧
      b.thrownAt ((TypedRead.string .f16).call .little) = some 2 := by simpa using hb
  exact ⟨b, hr, hbase, hcontent, hpos, thrownAt_eq_some hthrown⟩

/-- The length is gone, and comes back. -/
theorem failed_read_restored :
    ∃ b b', uses.Reachable b ∧ b.content = [0, 5] ∧ b.position = 0 ∧
      (TypedRead.string .f16).call .little b = .error .outOfRange b' ∧ b'.content = [0, 5] ∧
      setPosition 0 b' = .ok () b := by
  obtain ⟨b, hr, hbase, hcontent, hpos, b', hthrow, -⟩ := readStringF16_cut_short
  obtain ⟨hsame, -, -, -, hback, -⟩ := failed_read hr (by omega) .little (.string .f16) hthrow
  exact ⟨b, b', hr, hcontent, hpos, hthrow, hsame.trans hcontent, hpos ▸ hback⟩

theorem failed_read_consumes :
    ∃ b b', uses.Reachable b ∧ 1 ≤ b.baseSize ∧
      (TypedRead.string .f16).call .little b = .error .outOfRange b' ∧
      b'.position ≠ b.position := by
  obtain ⟨b, hr, hbase, -, hpos, b', hthrow, hmoved⟩ := readStringF16_cut_short
  exact ⟨b, b', hr, by omega, hthrow, by omega⟩

end Buffer

end Easy.Net
