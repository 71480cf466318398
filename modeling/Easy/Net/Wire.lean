import Easy.Lib.Codec
import Easy.Lib.Bytes
import Easy.Net.Buffer

/-!
The typed readers and writers of `easy/net/Buffer.cc`, and `byteswap` of
`easy/net/Endian.h`.

A writer is the bytes it passes to `write`, in order; a reader is a parser of a
flat stream, whose `read` fails where `Buffer::read` throws. Both depend on
`endian_` and on the byte order of the host, which decides what an integer
looks like in memory. Integers are bit vectors, signed ones in two's complement;
the bits of a `float` or `double` are copied to and from an integer.
-/

namespace Easy.Net

open Lib

variable {n : ℕ}

/-- The bytes of an integer in the memory of a host. -/
def Endian.bytes (host : Endian) (v : BitVec (8 * n)) : List UInt8 :=
  match host with
  | .little => toLE n v.toNat
  | .big => (toLE n v.toNat).reverse

/-- The integer that a host has in memory as these bytes. -/
def Endian.value (host : Endian) (n : ℕ) (bs : List UInt8) : BitVec (8 * n) :=
  match host with
  | .little => BitVec.ofNat _ (ofLE bs)
  | .big => BitVec.ofNat _ (ofLE bs.reverse)

/-- `bswap_16`, `bswap_32` and `bswap_64`. -/
def byteswap (v : BitVec (8 * n)) : BitVec (8 * n) := BitVec.ofNat _ (ofLE (toLE n v.toNat).reverse)

/-- `read(&v, sizeof(v))` -/
def readRaw (host : Endian) (n : ℕ) : Parser UInt8 (BitVec (8 * n)) :=
  host.value n <$> Parser.take n

/-! ### Fixed widths -/

def writeFint8 (host : Endian) (value : BitVec 8) : List UInt8 := host.bytes (n := 1) value

def writeFuint8 (host : Endian) (value : BitVec 8) : List UInt8 := host.bytes (n := 1) value

/-- The body of the writers from `writeFint16` on. -/
def writeFixed (endian host : Endian) (value : BitVec (8 * n)) : List UInt8 :=
  host.bytes (if endian ≠ host then byteswap value else value)

def writeFint16 (endian host : Endian) (value : BitVec 16) : List UInt8 :=
  writeFixed (n := 2) endian host value

def writeFuint16 (endian host : Endian) (value : BitVec 16) : List UInt8 :=
  writeFixed (n := 2) endian host value

def writeFint32 (endian host : Endian) (value : BitVec 32) : List UInt8 :=
  writeFixed (n := 4) endian host value

def writeFuint32 (endian host : Endian) (value : BitVec 32) : List UInt8 :=
  writeFixed (n := 4) endian host value

def writeFint64 (endian host : Endian) (value : BitVec 64) : List UInt8 :=
  writeFixed (n := 8) endian host value

def writeFuint64 (endian host : Endian) (value : BitVec 64) : List UInt8 :=
  writeFixed (n := 8) endian host value

/-- `writeFloat`, of the bits of a `float`. -/
def writeFloat (endian host : Endian) (value : BitVec 32) : List UInt8 :=
  writeFuint32 endian host value

/-- `writeDouble`, of the bits of a `double`. -/
def writeDouble (endian host : Endian) (value : BitVec 64) : List UInt8 :=
  writeFuint64 endian host value

def readFint8 (host : Endian) : Parser UInt8 (BitVec 8) := readRaw host 1

def readFuint8 (host : Endian) : Parser UInt8 (BitVec 8) := readRaw host 1

/-- The macro `XX`. -/
def readFixed (endian host : Endian) (n : ℕ) : Parser UInt8 (BitVec (8 * n)) := do
  let v ← readRaw host n
  return if endian = host then v else byteswap v

def readFint16 (endian host : Endian) : Parser UInt8 (BitVec 16) := readFixed endian host 2

def readFuint16 (endian host : Endian) : Parser UInt8 (BitVec 16) := readFixed endian host 2

def readFint32 (endian host : Endian) : Parser UInt8 (BitVec 32) := readFixed endian host 4

def readFuint32 (endian host : Endian) : Parser UInt8 (BitVec 32) := readFixed endian host 4

def readFint64 (endian host : Endian) : Parser UInt8 (BitVec 64) := readFixed endian host 8

def readFuint64 (endian host : Endian) : Parser UInt8 (BitVec 64) := readFixed endian host 8

def readFloat (endian host : Endian) : Parser UInt8 (BitVec 32) := readFuint32 endian host

def readDouble (endian host : Endian) : Parser UInt8 (BitVec 64) := readFuint64 endian host

/-! ### Varints -/

section

variable {w : ℕ}

/-- `EncodeZigzag32` and `EncodeZigzag64` -/
def encodeZigzag (v : BitVec w) : BitVec w :=
  if v.slt 0 then -v * 2 - 1 else v * 2

/-- `DecodeZigzag32` and `DecodeZigzag64` -/
def decodeZigzag (v : BitVec w) : BitVec w := (v >>> 1) ^^^ -(v &&& 1)

/-- The loop of `writeUint32` and `writeUint64`, from the next element of `tmp` on. -/
def writeVarint (value : BitVec w) : List UInt8 :=
  if 0x80 ≤ value.toNat then
    .ofBitVec ((value &&& 0x7F).setWidth 8 ||| 0x80) :: writeVarint (value >>> 7)
  else [.ofBitVec (value.setWidth 8)]
termination_by value.toNat
decreasing_by
  rw [BitVec.toNat_ushiftRight, Nat.shiftRight_eq_div_pow]
  omega

/-- The loop of `readUint32` and `readUint64`, from round `i / 7` on. -/
def readVarint (host : Endian) (i : ℕ) (result : BitVec w) : Parser UInt8 (BitVec w) :=
  if i < w then do
    let b ← readFuint8 host
    if b < 0x80 then return result ||| b.setWidth w <<< i
    else readVarint host (i + 7) (result ||| (b &&& 0x7f).setWidth w <<< i)
  else return result
termination_by w - i

end

def encodeZigzag32 (v : BitVec 32) : BitVec 32 := encodeZigzag v

def encodeZigzag64 (v : BitVec 64) : BitVec 64 := encodeZigzag v

def decodeZigzag32 (v : BitVec 32) : BitVec 32 := decodeZigzag v

def decodeZigzag64 (v : BitVec 64) : BitVec 64 := decodeZigzag v

def writeUint32 (value : BitVec 32) : List UInt8 := writeVarint value

def writeUint64 (value : BitVec 64) : List UInt8 := writeVarint value

def writeInt32 (value : BitVec 32) : List UInt8 := writeUint32 (encodeZigzag32 value)

def writeInt64 (value : BitVec 64) : List UInt8 := writeUint64 (encodeZigzag64 value)

def readUint32 (host : Endian) : Parser UInt8 (BitVec 32) := readVarint host 0 0

def readUint64 (host : Endian) : Parser UInt8 (BitVec 64) := readVarint host 0 0

def readInt32 (host : Endian) : Parser UInt8 (BitVec 32) := decodeZigzag32 <$> readUint32 host

def readInt64 (host : Endian) : Parser UInt8 (BitVec 64) := decodeZigzag64 <$> readUint64 host

/-! ### Strings -/

/-- A `std::string`, whose size is a `size_t`. -/
structure StdString where
  data : List UInt8
  length_lt : data.length < 2 ^ 64
  deriving DecidableEq

def StdString.size (s : StdString) : BitVec 64 := BitVec.ofNat 64 s.data.length

/-- `write(value.c_str(), value.size())` behind the length. -/
def writeStringF16 (endian host : Endian) (value : StdString) : List UInt8 :=
  writeFuint16 endian host (value.size.setWidth 16) ++ value.data

def writeStringF32 (endian host : Endian) (value : StdString) : List UInt8 :=
  writeFuint32 endian host (value.size.setWidth 32) ++ value.data

def writeStringF64 (endian host : Endian) (value : StdString) : List UInt8 :=
  writeFuint64 endian host value.size ++ value.data

def writeStringVint (value : StdString) : List UInt8 := writeUint64 value.size ++ value.data

def writeStringWithoutLength (value : StdString) : List UInt8 := value.data

/-- `buff.resize(len)` and `read(&buff[0], len)` -/
def readData (len : BitVec 64) : Parser UInt8 StdString := fun s =>
  if len.toNat ≤ s.length then
    some (⟨s.take len.toNat, (s.length_take_le _).trans_lt len.isLt⟩, s.drop len.toNat)
  else none

def readStringF16 (endian host : Endian) : Parser UInt8 StdString := do
  let len ← readFuint16 endian host
  readData (len.setWidth 64)

def readStringF32 (endian host : Endian) : Parser UInt8 StdString := do
  let len ← readFuint32 endian host
  readData (len.setWidth 64)

def readStringF64 (endian host : Endian) : Parser UInt8 StdString := do
  let len ← readFuint64 endian host
  readData len

def readStringVint (host : Endian) : Parser UInt8 StdString := do
  let len ← readUint64 host
  readData len

end Easy.Net
