import Mathlib.Algebra.Order.Ring.Int
import Mathlib.Algebra.Order.Ring.Nat
import Mathlib.Data.List.Basic

/-!
Reads and writes of several buffers over TLS: `SSLSocket::send` and `SSLSocket::recv` of
`iovec`s (`easy/net/Socket.cc`).

Each buffer takes one call of the library, and both functions go on only behind one that has
moved all of its buffer. They return the sum of the results, but where a call fails they return
what it returned, whatever the calls before it have moved.
-/

namespace Easy.Net

/-- A call of `SSL_write` or `SSL_read` for one `iovec`, with its result. `iov` is what the
buffer holds, and for a read what would fill it. -/
structure TlsCall where
  iov : List UInt8
  result : ℤ
  result_le : result ≤ iov.length

namespace TlsCall

/-- The bytes that are accepted from the buffer, or stored into it. -/
def moved (c : TlsCall) : List UInt8 := c.iov.take c.result.toNat

/-- `static_cast<int>(iov_len)` -/
def length (c : TlsCall) : ℤ := (BitVec.ofNat 32 c.iov.length).toInt

end TlsCall

/-- The result of arithmetic in `int`. -/
def int32 (v : ℤ) : Option ℤ := if -2 ^ 31 ≤ v ∧ v < 2 ^ 31 then some v else none

namespace SSLSocket

variable {total : ℤ} {c : TlsCall} {calls : List TlsCall}

/-- The loops of `send` and `recv`: what is returned, and the bytes that have moved. -/
def transfer (total : ℤ) : List TlsCall → Option (ℤ × List UInt8)
  | [] => some (total, [])
  | c :: calls =>
    if c.result ≤ 0 then some (c.result, c.moved)
    else do
      let total ← int32 (total + c.result)
      if c.result ≠ c.length then return (total, c.moved)
      else
        let (r, moved) ← transfer total calls
        return (r, c.moved ++ moved)

def send (ssl : Bool) (calls : List TlsCall) : Option (ℤ × List UInt8) :=
  if !ssl then some (-1, []) else transfer 0 calls

def recv (ssl : Bool) (calls : List TlsCall) : Option (ℤ × List UInt8) :=
  if !ssl then some (-1, []) else transfer 0 calls

/-! ### One call -/

theorem length_moved (h : 0 ≤ c.result) : (c.moved.length : ℤ) = c.result := by
  have hle := c.result_le
  rw [TlsCall.moved, List.length_take_of_le (by omega), Int.toNat_of_nonneg h]

theorem moved_of_nonpos (h : c.result ≤ 0) : c.moved = [] := by
  rw [TlsCall.moved, Int.toNat_of_nonpos h, List.take_zero]

theorem length_eq (h : c.iov.length < 2 ^ 31) : c.length = c.iov.length := by
  have hnat : (BitVec.ofNat 32 c.iov.length).toNat = c.iov.length := by
    rw [BitVec.toNat_ofNat]
    exact Nat.mod_eq_of_lt (by omega)
  rw [TlsCall.length, BitVec.toInt_eq_toNat_of_lt (by omega), hnat]

/-- The call has moved all of a buffer that is not empty, so that there is a next one. -/
def Full (c : TlsCall) : Prop := 0 < c.result ∧ c.result = c.iov.length

/-! ### Failures -/

/-- A call fails, and those before it have moved all of their buffers. -/
def Fails (calls : List TlsCall) : Prop :=
  ∃ done c rest, calls = done ++ c :: rest ∧ (∀ d ∈ done, Full d) ∧ c.result ≤ 0

/-- It is not the first one. -/
def FailsLate (calls : List TlsCall) : Prop :=
  ∃ done c rest, calls = done ++ c :: rest ∧ done ≠ [] ∧ (∀ d ∈ done, Full d) ∧ c.result ≤ 0

theorem not_fails_nil : ¬Fails [] := by
  rintro ⟨done, c, rest, hcalls, -, -⟩
  simp at hcalls

theorem failsLate_cons : FailsLate (c :: calls) ↔ Full c ∧ Fails calls := by
  constructor
  · rintro ⟨done, d, rest, hcalls, hne, hfull, hd⟩
    cases done with
    | nil => exact absurd rfl hne
    | cons c' done =>
        obtain ⟨rfl, rfl⟩ := List.cons.inj hcalls
        exact ⟨hfull c (by simp), done, d, rest, rfl, fun e he => hfull e (by simp [he]), hd⟩
  · rintro ⟨hc, done, d, rest, rfl, hfull, hd⟩
    refine ⟨c :: done, d, rest, rfl, by simp, fun e he => ?_, hd⟩
    rcases List.mem_cons.mp he with rfl | he
    · exact hc
    · exact hfull e he

theorem fails_cons : Fails (c :: calls) ↔ c.result ≤ 0 ∨ Full c ∧ Fails calls := by
  rw [← failsLate_cons]
  constructor
  · rintro ⟨done, d, rest, hcalls, hfull, hd⟩
    by_cases hne : done = []
    · subst hne
      obtain ⟨rfl, -⟩ := List.cons.inj hcalls
      exact .inl hd
    · exact .inr ⟨done, d, rest, hcalls, hne, hfull, hd⟩
  · rintro (hc | ⟨done, d, rest, hcalls, -, hfull, hd⟩)
    · exact ⟨[], c, calls, rfl, by simp, hc⟩
    · exact ⟨done, d, rest, hcalls, hfull, hd⟩

/-! ### The loop -/

/-- The bytes of all buffers. -/
def room (calls : List TlsCall) : ℕ := (calls.map fun c => c.iov.length).sum

theorem room_cons (c : TlsCall) (calls : List TlsCall) :
    room (c :: calls) = c.iov.length + room calls := by
  simp [room]

/-- The sum stays in `int`. -/
theorem int32_add (hpos : 0 < c.result) (hnonneg : 0 ≤ total)
    (hroom : total + c.iov.length < 2 ^ 31) :
    int32 (total + c.result) = some (total + c.result) := by
  have hle := c.result_le
  exact if_pos (by omega)

/-- A call that moves all of its buffer is followed by the next one. -/
theorem transfer_full (hfull : Full c) (hnonneg : 0 ≤ total)
    (hroom : total + c.iov.length < 2 ^ 31) : transfer total (c :: calls) =
      (transfer (total + c.result) calls).map fun r => (r.1, c.moved ++ r.2) := by
  obtain ⟨hpos, hlen⟩ := hfull
  rw [transfer, if_neg (not_le.mpr hpos), int32_add hpos hnonneg hroom, Option.bind_eq_bind,
    Option.bind_some, length_eq (by omega), if_neg (not_not.mpr hlen)]
  cases transfer (total + c.result) calls with
  | none => rfl
  | some r => rfl

/-- A call that moves less ends the loop. -/
theorem transfer_short (hpos : 0 < c.result) (hshort : c.result ≠ c.iov.length)
    (hnonneg : 0 ≤ total) (hroom : total + c.iov.length < 2 ^ 31) :
    transfer total (c :: calls) = some (total + c.result, c.moved) := by
  rw [transfer, if_neg (not_le.mpr hpos), int32_add hpos hnonneg hroom, Option.bind_eq_bind,
    Option.bind_some, length_eq (by omega), if_pos hshort]
  rfl

/-- **The loop** returns `total` and what it has moved, unless a call fails. -/
theorem transfer_eq (hnonneg : 0 ≤ total) (hroom : total + room calls < 2 ^ 31) :
    ∃ r moved, transfer total calls = some (r, moved) ∧ (Fails calls → r ≤ 0) ∧
      (¬Fails calls → r = total + moved.length) := by
  induction calls generalizing total with
  | nil => exact ⟨total, [], rfl, fun h => absurd h not_fails_nil, fun _ => by simp⟩
  | cons c calls ih =>
      have hsum := room_cons c calls
      have hle := c.result_le
      rw [fails_cons]
      by_cases hfail : c.result ≤ 0
      · refine ⟨c.result, c.moved, by rw [transfer, if_pos hfail], fun _ => hfail, fun h => ?_⟩
        exact absurd (.inl hfail) h
      have hpos : 0 < c.result := not_le.mp hfail
      have hlen : (c.moved.length : ℤ) = c.result := length_moved (le_of_lt hpos)
      by_cases hfull : c.result = c.iov.length
      · have hnonneg' : 0 ≤ total + c.result := by omega
        obtain ⟨r, moved, hrest, hneg, hsome⟩ := ih hnonneg' (by omega)
        rw [transfer_full ⟨hpos, hfull⟩ hnonneg (by omega), hrest]
        refine ⟨r, c.moved ++ moved, rfl, fun h => hneg (h.resolve_left hfail).2, fun h => ?_⟩
        rw [hsome fun hrest => h (.inr ⟨⟨hpos, hfull⟩, hrest⟩), List.length_append]
        omega
      · rw [transfer_short hpos hfull hnonneg (by omega)]
        refine ⟨_, _, rfl, fun h => ?_, fun _ => by rw [hlen]⟩
        exact absurd (h.resolve_left hfail).1.2 hfull

/-- What is returned is what has moved, unless a call fails behind one that has moved. -/
theorem transfer_iff (hroom : room calls < 2 ^ 31) :
    ∃ r moved, transfer 0 calls = some (r, moved) ∧
      ((moved.length : ℤ) = max r 0 ↔ ¬FailsLate calls) := by
  have hroom' : (0 : ℤ) + room calls < 2 ^ 31 := by omega
  obtain ⟨r, moved, hcalls, hneg, hsome⟩ := transfer_eq le_rfl hroom'
  refine ⟨r, moved, hcalls, ?_⟩
  by_cases hfails : Fails calls
  case neg =>
    have hr := hsome hfails
    refine iff_of_true (by omega) ?_
    rintro ⟨done, c, rest, hcalls, -, hfull, hc⟩
    exact hfails ⟨done, c, rest, hcalls, hfull, hc⟩
  have hr := hneg hfails
  cases calls with
  | nil => exact absurd hfails not_fails_nil
  | cons c calls =>
      rw [failsLate_cons, max_eq_right hr]
      rcases fails_cons.mp hfails with hfail | ⟨hfull, hrest⟩
      · rw [transfer, if_pos hfail] at hcalls
        obtain ⟨-, rfl⟩ := Prod.mk.inj (Option.some.inj hcalls)
        rw [moved_of_nonpos hfail]
        exact iff_of_true rfl fun h => absurd hfail (not_le.mpr h.1.1)
      · have hsum := room_cons c calls
        rw [transfer_full hfull le_rfl (by omega)] at hcalls
        obtain ⟨⟨r', moved'⟩, -, hpair⟩ := Option.map_eq_some_iff.mp hcalls
        obtain ⟨-, rfl⟩ := Prod.mk.inj hpair
        have hlen : (c.moved.length : ℤ) = c.result := length_moved (le_of_lt hfull.1)
        have hpos := hfull.1
        refine iff_of_false ?_ fun h => h ⟨hfull, hrest⟩
        rw [List.length_append]
        omega

/-- **Bytes over TLS.** What `send` and `recv` return is the number of bytes they have taken or
stored, if and only if no call of the library fails behind one that has moved bytes. -/
theorem bytes_iff (ssl : Bool) (calls : List TlsCall) (hroom : room calls < 2 ^ 31) :
    (∃ r moved, send ssl calls = some (r, moved) ∧
      ((moved.length : ℤ) = max r 0 ↔ (ssl → ¬FailsLate calls))) ∧
    ∃ r moved, recv ssl calls = some (r, moved) ∧
      ((moved.length : ℤ) = max r 0 ↔ (ssl → ¬FailsLate calls)) := by
  cases ssl with
  | false =>
      have hnone : ((([] : List UInt8).length : ℤ) = max (-1) 0) ↔
          (false = true → ¬FailsLate calls) := iff_of_true rfl fun h => (by cases h)
      exact ⟨⟨-1, [], rfl, hnone⟩, -1, [], rfl, hnone⟩
  | true =>
      obtain ⟨r, moved, hcalls, hiff⟩ := transfer_iff hroom
      exact ⟨⟨r, moved, hcalls, by simpa using hiff⟩, r, moved, hcalls, by simpa using hiff⟩

/-- The second of two buffers is accepted in part. -/
theorem bytes_short : ∃ r moved,
    send true [⟨[1, 2], 2, by decide⟩, ⟨[3, 4], 1, by decide⟩] = some (r, moved) ∧
      (moved.length : ℤ) = max r 0 := by
  obtain ⟨⟨r, moved, hsend, hiff⟩, -⟩ :=
    bytes_iff true [⟨[1, 2], 2, by decide⟩, ⟨[3, 4], 1, by decide⟩] (by decide)
  refine ⟨r, moved, hsend, hiff.mpr fun _ => ?_⟩
  rw [failsLate_cons, fails_cons]
  rintro ⟨-, hfail | ⟨hfull, -⟩⟩
  · exact absurd hfail (by decide)
  · exact absurd hfull.2 (by decide)

/-- The first of two buffers is accepted, and the call for the second one fails. -/
theorem bytes_false :
    send true [⟨[1, 2], 2, by decide⟩, ⟨[3, 4], -1, by decide⟩] = some (-1, [1, 2]) ∧
      (([1, 2] : List UInt8).length : ℤ) ≠ max (-1) 0 := by
  decide

end SSLSocket

end Easy.Net
