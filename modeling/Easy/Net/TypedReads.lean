import Easy.Net.Uses
import Easy.Net.Wire

/-!
The typed readers of `Buffer` as calls on a buffer, and which reads are safe.

Each reader follows the parser of the flat stream that stands for it: where the parser
takes a part of the readable bytes, the call returns the same value and leaves the cursor
behind that part. This is so for every read of at least one byte. A read of none is the
exception, since the call looks at the node of the cursor whether or not it needs it.
-/

namespace Easy.Net.Buffer

open Lib

variable {α β : Type} {b : Buffer} {e : Endian} {n : ℕ}

/-- `read(&v, sizeof(v))` -/
def readRaw (host : Endian) (n : ℕ) : Call (BitVec (8 * n)) := host.value n <$> read n

def readFint8 (host : Endian) : Call (BitVec 8) := readRaw host 1

def readFuint8 (host : Endian) : Call (BitVec 8) := readRaw host 1

/-- The macro `XX`. -/
def readFixed (host : Endian) (n : ℕ) : Call (BitVec (8 * n)) := do
  let v ← readRaw host n
  let b ← get
  return if b.endian = host then v else byteswap v

def readFint16 (host : Endian) : Call (BitVec 16) := readFixed host 2

def readFuint16 (host : Endian) : Call (BitVec 16) := readFixed host 2

def readFint32 (host : Endian) : Call (BitVec 32) := readFixed host 4

def readFuint32 (host : Endian) : Call (BitVec 32) := readFixed host 4

def readFint64 (host : Endian) : Call (BitVec 64) := readFixed host 8

def readFuint64 (host : Endian) : Call (BitVec 64) := readFixed host 8

def readFloat (host : Endian) : Call (BitVec 32) := readFuint32 host

def readDouble (host : Endian) : Call (BitVec 64) := readFuint64 host

/-- The loop of `readUint32` and `readUint64`, from round `i / 7` on. -/
def readVarint {w : ℕ} (host : Endian) (i : ℕ) (result : BitVec w) : Call (BitVec w) :=
  if i < w then do
    let b ← readFuint8 host
    if b < 0x80 then return result ||| b.setWidth w <<< i
    else readVarint host (i + 7) (result ||| (b &&& 0x7f).setWidth w <<< i)
  else return result
termination_by w - i

def readUint32 (host : Endian) : Call (BitVec 32) := readVarint host 0 0

def readUint64 (host : Endian) : Call (BitVec 64) := readVarint host 0 0

def readInt32 (host : Endian) : Call (BitVec 32) := decodeZigzag32 <$> readUint32 host

def readInt64 (host : Endian) : Call (BitVec 64) := decodeZigzag64 <$> readUint64 host

/-- `buff.resize(len)` and `read(&buff[0], len)` -/
def readData (len : BitVec 64) : Call StdString := do
  let bs ← read len.toNat
  return ⟨bs.take len.toNat, Nat.lt_of_le_of_lt (bs.length_take_le _) len.isLt⟩

def readStringF16 (host : Endian) : Call StdString := do
  let len ← readFuint16 host
  readData (len.setWidth 64)

def readStringF32 (host : Endian) : Call StdString := do
  let len ← readFuint32 host
  readData (len.setWidth 64)

def readStringF64 (host : Endian) : Call StdString := do
  let len ← readFuint64 host
  readData len

def readStringVint (host : Endian) : Call StdString := do
  let len ← readUint64 host
  readData len

/-! ### Readers and parsers -/

/-- The reader takes from a buffer of byte order `e` what the parser takes from its
readable bytes, and throws where the parser fails. -/
def Follows (e : Endian) (c : Call α) (p : Parser UInt8 α) : Prop :=
  ∀ b : Buffer, b.Wf → b.endian = e →
    ∃ v, b.position ≤ v ∧ v ≤ b.size ∧
      match p (b.content.drop b.position) with
      | some (a, rest) => rest = b.content.drop v ∧ c b = .ok a (b.moveTo v)
      | none => c b = .error .outOfRange (b.moveTo v)

theorem moveTo_position (h : b.Wf) : b.moveTo b.position = b := by
  rw [moveTo, curAt, ← h.cur_eq, Nat.max_eq_left h.position_le]

theorem moveTo_moveTo {v w : ℕ} (hv : v ≤ b.size) : (b.moveTo v).moveTo w = b.moveTo w := by
  simp only [moveTo, curAt, Nat.max_eq_left hv]

/-- The readable bytes behind a moved cursor. -/
theorem content_moveTo {v : ℕ} (hv : v ≤ b.size) : (b.moveTo v).content = b.content :=
  congrArg Flat.content (flat_moveTo hv)

theorem Follows.pure (a : α) : Follows e (Pure.pure a) (Pure.pure a) := by
  intro b hwf he
  exact ⟨b.position, le_rfl, hwf.position_le, rfl, by rw [moveTo_position hwf]; rfl⟩

theorem Follows.bind {c : Call α} {p : Parser UInt8 α} {f : α → Call β} {g : α → Parser UInt8 β}
    (h : Follows e c p) (h' : ∀ a, Follows e (f a) (g a)) : Follows e (c >>= f) (p >>= g) := by
  intro b hwf he
  obtain ⟨v, hpv, hv, hc⟩ := h b hwf he
  have hbind : (p >>= g) (b.content.drop b.position) =
      p (b.content.drop b.position) >>= fun r => g r.1 r.2 := rfl
  rw [hbind]
  cases hp : p (b.content.drop b.position) with
  | none =>
      rw [hp] at hc
      exact ⟨v, hpv, hv, by simp [hc]⟩
  | some r =>
      obtain ⟨a, rest⟩ := r
      rw [hp] at hc
      obtain ⟨rfl, hc⟩ := hc
      have hcap := hv.trans hwf.size_le
      have hsize : (b.moveTo v).size = b.size := Nat.max_eq_left hv
      obtain ⟨w, hvw, hw, hf⟩ := h' a (b.moveTo v) (hwf.moveTo hcap) he
      rw [content_moveTo hv, show (b.moveTo v).position = v from rfl] at hf
      rw [moveTo_moveTo hv] at hf
      refine ⟨w, hpv.trans hvw, hsize ▸ hw, ?_⟩
      simpa only [Call.bind_apply, hc, Option.bind_eq_bind, Option.bind_some] using hf

theorem Follows.map {c : Call α} {p : Parser UInt8 α} (h : Follows e c p) (f : α → β) :
    Follows e (f <$> c) (f <$> p) := by
  have hc : f <$> c = c >>= fun a => Pure.pure (f a) := rfl
  have hp : f <$> p = p >>= fun a => Pure.pure (f a) := rfl
  rw [hc, hp]
  exact h.bind fun a => .pure (f a)

/-- **A read of at least one byte** takes it from the front of the readable bytes. -/
theorem follows_read (hn : 0 < n) : Follows e (read n) (Parser.take n) := by
  intro b hwf _
  have hps := hwf.position_le
  have hlen : (b.content.drop b.position).length = b.readSize := by
    rw [List.length_drop, hwf.length_content, readSize]
  rw [Parser.take, hlen]
  by_cases hle : n ≤ b.readSize
  · refine ⟨b.position + n, Nat.le_add_right .., ?_, ?_⟩
    · rw [readSize] at hle
      omega
    · rw [if_pos hle]
      exact ⟨List.drop_drop .., read_eq hwf hn hle⟩
  · refine ⟨b.position, le_rfl, hps, ?_⟩
    rw [if_neg hle, moveTo_position hwf]
    exact read_throws (Nat.lt_of_not_le hle)

theorem follows_readRaw (host : Endian) (hn : 0 < n) :
    Follows e (readRaw host n) (Net.readRaw host n) := (follows_read hn).map _

theorem follows_readFixed (host : Endian) (hn : 0 < n) :
    Follows e (readFixed host n) (Net.readFixed e host n) := by
  refine (follows_readRaw host hn).bind fun v b hwf he => ?_
  refine ⟨b.position, le_rfl, hwf.position_le, rfl, ?_⟩
  simp [moveTo_position hwf, he]

theorem follows_readVarint {w : ℕ} (host : Endian) (i : ℕ) (result : BitVec w) :
    Follows e (readVarint host i result) (Net.readVarint host i result) := by
  induction hi : w - i using Nat.strong_induction_on generalizing i result with
  | _ m ih =>
      rw [readVarint, Net.readVarint]
      split
      case isTrue hlt =>
        refine (follows_readRaw host (n := 1) (by decide)).bind fun v => ?_
        split
        · exact .pure _
        · exact ih (w - (i + 7)) (by omega) (i + 7) _ rfl
      case isFalse => exact .pure _

/-! ### Strings -/

/-- The formats of a string, by its length in front of the data. -/
inductive StringFormat
  | f16
  | f32
  | f64
  | vint
  deriving DecidableEq, Repr

namespace StringFormat

/-- `readStringF16`, `readStringF32`, `readStringF64` and `readStringVint` -/
def read (host : Endian) : StringFormat → Call StdString
  | .f16 => readStringF16 host
  | .f32 => readStringF32 host
  | .f64 => readStringF64 host
  | .vint => readStringVint host

/-- The length a reader takes before the data. -/
def readLength (host : Endian) : StringFormat → Call (BitVec 64)
  | .f16 => BitVec.setWidth 64 <$> readFuint16 host
  | .f32 => BitVec.setWidth 64 <$> readFuint32 host
  | .f64 => readFuint64 host
  | .vint => readUint64 host

/-- The parser of that length. -/
def length (endian host : Endian) : StringFormat → Parser UInt8 (BitVec 64)
  | .f16 => BitVec.setWidth 64 <$> Net.readFuint16 endian host
  | .f32 => BitVec.setWidth 64 <$> Net.readFuint32 endian host
  | .f64 => Net.readFuint64 endian host
  | .vint => Net.readUint64 host

theorem read_eq (host : Endian) (fmt : StringFormat) :
    fmt.read host = fmt.readLength host >>= readData := by
  cases fmt with
  | f16 => rw [read, readLength, readStringF16, bind_map_left]
  | f32 => rw [read, readLength, readStringF32, bind_map_left]
  | f64 => rfl
  | vint => rfl

theorem follows_readLength (host : Endian) (fmt : StringFormat) :
    Follows e (fmt.readLength host) (fmt.length e host) := by
  cases fmt with
  | f16 => exact (follows_readFixed host (n := 2) (by decide)).map _
  | f32 => exact (follows_readFixed host (n := 4) (by decide)).map _
  | f64 => exact follows_readFixed host (n := 8) (by decide)
  | vint => exact follows_readVarint host 0 0

/-- There is a length in front of every string. -/
theorem length_nil (host : Endian) (fmt : StringFormat) : fmt.length e host [] = none := by
  cases fmt with
  | vint =>
      rw [length, Net.readUint64, Net.readVarint]
      rfl
  | _ => rfl

end StringFormat

/-! ### Reads that are safe -/

/-- A read of `n` bytes hands out those at the cursor, moves it past them and changes
nothing else. -/
def ReadsAll (b : Buffer) (n : ℕ) : Prop :=
  ∃ b', read n b = .ok ((b.content.drop b.position).take n) b' ∧ b'.position = b.position + n ∧
    b'.content = b.content ∧ b'.size = b.size ∧ b'.capacity = b.capacity

/-- The reader of a string format returns the empty string, and leaves the cursor in
front of `rest`. -/
def ReadsEmpty (b : Buffer) (host : Endian) (fmt : StringFormat) (rest : List UInt8) : Prop :=
  ∃ s b', fmt.read host b = .ok s b' ∧ s.data = [] ∧ b'.position = b.size - rest.length

theorem readData_zero (h : b.Wf) :
    (∃ s b', readData 0 b = .ok s b' ∧ s.data = [] ∧ b'.position = b.position) ↔
      b.position ≠ b.capacity := by
  have hzero : (0 : BitVec 64).toNat = 0 := rfl
  simp only [readData, Call.bind_apply, hzero, h.read_zero]
  by_cases hfull : b.position = b.capacity
  · simp [hfull]
  · simp [hfull]

theorem Wf.readsAll_iff (h : b.Wf) (hn : n ≤ b.readSize) :
    b.ReadsAll n ↔ (n = 0 → b.position ≠ b.capacity) := by
  obtain rfl | hpos := Nat.eq_zero_or_pos n
  · rw [ReadsAll, h.read_zero]
    split
    case isTrue hfull => simp [hfull]
    case isFalse hfull => simp [hfull]
  · have hle : b.position + n ≤ b.size := by
      have := h.position_le
      rw [readSize] at hn
      omega
    refine ⟨fun _ hzero => absurd hzero hpos.ne', fun _ => ?_⟩
    exact ⟨_, read_eq h hpos hn, rfl, content_moveTo hle, Nat.max_eq_left hle, rfl⟩

theorem Hollow.readsAll_iff (h : b.Hollow) (hn : n ≤ b.readSize) :
    b.ReadsAll n ↔ (n = 0 → b.position ≠ b.capacity) := by
  have hfull : b.position = b.capacity := h.position_eq.trans h.capacity_eq.symm
  obtain rfl : n = 0 := by
    rw [readSize, h.size_eq] at hn
    omega
  simp [ReadsAll, h.read_zero, hfull]

/-- **Reads of what is readable.** They hand it out unless they are empty and the cursor
is at exact capacity, which in a buffer of base size zero it always is. So the reader of a
string returns the empty string unless its length ends at exact capacity. -/
theorem read_total_iff (h : uses.Reachable b) :
    (∀ n ≤ b.readSize, b.ReadsAll n ↔ (n = 0 → b.position ≠ b.capacity)) ∧
      ∀ host (fmt : StringFormat) rest,
        fmt.length b.endian host (b.content.drop b.position) = some (0, rest) →
          (b.ReadsEmpty host fmt rest ↔ b.size - rest.length ≠ b.capacity) := by
  rcases reachable_sound h with hwf | hhollow
  · refine ⟨fun n hn => hwf.readsAll_iff hn, fun host fmt rest hlength => ?_⟩
    obtain ⟨v, hpv, hv, hread⟩ := fmt.follows_readLength (e := b.endian) host b hwf rfl
    rw [hlength] at hread
    obtain ⟨rfl, hread⟩ := hread
    have hend : b.size - (b.content.drop v).length = v := by
      rw [List.length_drop, hwf.length_content]
      omega
    rw [ReadsEmpty, hend, fmt.read_eq, Call.bind_apply, hread]
    exact readData_zero (hwf.moveTo (hv.trans hwf.size_le))
  · refine ⟨fun n hn => hhollow.readsAll_iff hn, fun host fmt rest hlength => ?_⟩
    have hnil : b.content = [] := by rw [content, hhollow.size_eq, List.take_zero]
    rw [hnil, List.drop_nil, fmt.length_nil] at hlength
    cases hlength

/-- An empty string in a buffer with room behind it. -/
theorem read_total_room :
    ∃ b, uses.Reachable b ∧ b.content = [0, 0] ∧ b.capacity = 4 ∧
      (∀ n ≤ b.readSize, b.ReadsAll n ↔ (n = 0 → b.position ≠ b.capacity)) ∧
      ∀ host (fmt : StringFormat) rest,
        fmt.length b.endian host (b.content.drop b.position) = some (0, rest) →
          (b.ReadsEmpty host fmt rest ↔ b.size - rest.length ≠ b.capacity) := by
  have hrun : (uses.run (new 4 fun _ => 0) [.call (.write [0, 0] fun _ => 0),
      .call (.setPosition 0)]).map (fun b => (b.content, b.capacity)) = some ([0, 0], 4) := by
    decide
  obtain ⟨b, hr, hb⟩ := (reachable_new 4 fun _ => 0).of_map_run hrun
  obtain ⟨hcontent, hcap⟩ := Prod.mk.inj hb
  exact ⟨b, hr, hcontent, hcap, read_total_iff hr⟩

/-- An empty read of a buffer of base size zero, and an empty string whose length fills
the only node of its buffer. -/
theorem read_total_false :
    (∃ b, uses.Reachable b ∧ 0 ≤ b.readSize ∧ ¬ b.ReadsAll 0) ∧
      ∃ b, uses.Reachable b ∧
        StringFormat.f16.length b.endian .little (b.content.drop b.position) = some (0, []) ∧
        ¬ b.ReadsEmpty .little .f16 [] := by
  constructor
  · refine ⟨new 0 fun _ => 0, reachable_new 0 _, by decide, ?_⟩
    rintro ⟨b', hread, -⟩
    cases hread
  · have hrun : (uses.run (new 2 fun _ => 0) [.call (.write [0, 0] fun _ => 0),
        .call (.setPosition 0)]).map
          (fun b => (b.endian, b.content, b.position, (readStringF16 .little).run' b)) =
        some (.big, [0, 0], 0, none) := by
      decide
    obtain ⟨b, hr, hb⟩ := (reachable_new 2 fun _ => 0).of_map_run hrun
    obtain ⟨hendian, hcontent, hpos, hnone⟩ : b.endian = .big ∧ b.content = [0, 0] ∧
        b.position = 0 ∧ (readStringF16 .little).run' b = none := by simpa using hb
    refine ⟨b, hr, ?_, ?_⟩
    · rw [hendian, hcontent, hpos]
      decide
    · rintro ⟨s, b', hread, -⟩
      rw [StringFormat.read] at hread
      rw [Call.run'_eq_some hread] at hnone
      cases hnone

end Easy.Net.Buffer
