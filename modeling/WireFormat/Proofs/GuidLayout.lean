import WireFormat.Proofs.FixedWidth
import WireFormat.Proofs.ShiftedWords
import WireFormat.Schema.Encode
import WireFormat.Songs

/-! The wire form of identifiers against that of words. The first three groups of an identifier,
read as numbers from its natural bytes with the most significant byte first, go on the wire as the
words of these numbers; the other eight bytes follow as they are. Reading takes the same way back. -/
namespace WireFormat

namespace IntegerCodec

/-- The number whose digits in base 256 are `ds`, most significant first. -/
def bigEndian (ds : List UInt8) : Nat := ds.foldl (fun n d => 256 * n + d.toNat) 0

theorem bigEndian_eq (ds : List UInt8) : bigEndian ds = ofDigits ds.reverse := by
  have hfold (es : List UInt8) : es.foldr (fun d n => 256 * n + d.toNat) 0 = ofDigits es := by
    induction es with
    | nil => rfl
    | cons d es ih => rw [List.foldr_cons, ih, ofDigits, Nat.add_comm]
  rw [← hfold, List.foldr_reverse, bigEndian]

theorem bigEndian_lt (ds : List UInt8) : bigEndian ds < 256 ^ ds.length := by
  rw [bigEndian_eq, ← List.length_reverse]
  exact ofDigits_lt ds.reverse

end IntegerCodec

namespace Scalar
open IntegerCodec

/-- A word is written with its digits reversed. -/
theorem bytes16_bigEndian {ds : List UInt8} (h : ds.length = 2) :
    bytes16 (.ofNat (bigEndian ds)) = ds.reverse := by
  have hsize : ds.reverse.toArray.size = 2 := by simpa using h
  rw [bigEndian_eq]
  exact congrArg Vector.toList (put16_get16 ⟨ds.reverse.toArray, hsize⟩)

theorem bytes32_bigEndian {ds : List UInt8} (h : ds.length = 4) :
    bytes32 (.ofNat (bigEndian ds)) = ds.reverse := by
  have hsize : ds.reverse.toArray.size = 4 := by simpa using h
  rw [bigEndian_eq]
  exact congrArg Vector.toList (put32_get32 ⟨ds.reverse.toArray, hsize⟩)

end Scalar

namespace Guid
open IntegerCodec

/-- An identifier as three numbers and the eight bytes behind them. -/
structure Groups where
  first : UInt32
  second : UInt16
  third : UInt16
  tail : Vector UInt8 8
  deriving DecidableEq

/-- The groups of an identifier: its natural bytes 0 to 3, 4 and 5, 6 and 7 as numbers, most
significant byte first, and the last eight as they stand. -/
def groups (id : Guid) : Groups where
  first := .ofNat (bigEndian (id.bytes.toList.take 4))
  second := .ofNat (bigEndian ((id.bytes.toList.drop 4).take 2))
  third := .ofNat (bigEndian ((id.bytes.toList.drop 6).take 2))
  tail := id.bytes.drop 8

namespace Groups

/-- Writes the numbers as words and then the bytes. -/
def put (g : Groups) (w : Writer) : Writer :=
  let numbers := (Schema.scalar .uint16).put g.third <|
    (Schema.scalar .uint16).put g.second <| (Schema.scalar .uint32).put g.first w
  numbers.append g.tail.toList

/-- Reads the numbers as words and then the bytes. -/
def read : Decoder Groups := do
  let first ← Decoder.word32
  let second ← Decoder.word16
  let third ← Decoder.word16
  let tail ← Decoder.block 8
  return ⟨first, second, third, tail⟩

def form (g : Groups) : List UInt8 :=
  Scalar.bytes32 g.first ++ (Scalar.bytes16 g.second ++ (Scalar.bytes16 g.third ++ g.tail.toList))

theorem put_eq (g : Groups) (w : Writer) : g.put w = w.append g.form := by
  simp [put, form, Schema.put, Scalar.bytes, Writer.append]

theorem reads_read (limits : ReadLimits) (g : Groups) : read.Reads limits g.form g := by
  refine (Decoder.reads_word32 limits g.first).bind ?_
  refine (Decoder.reads_word16 limits g.second).bind ?_
  refine (Decoder.reads_word16 limits g.third).bind ?_
  exact (Decoder.reads_block limits g.tail).map _

theorem wide_read : read.Wide 16 := by
  have hword16 : Decoder.word16.Wide 2 := (Decoder.wide_block 2).map _
  have hword32 : Decoder.word32.Wide 4 := (Decoder.wide_block 4).map _
  refine hword32.bind fun first => hword16.bind (n := 10) fun second => ?_
  exact hword16.bind (n := 8) fun third => (Decoder.wide_block 8).map _

end Groups

/-- On the wire the first three groups stand in reverse. -/
theorem permute_toList (bytes : Vector UInt8 16) :
    (permute bytes).toList = (bytes.toList.take 4).reverse ++
      (((bytes.toList.drop 4).take 2).reverse ++
        (((bytes.toList.drop 6).take 2).reverse ++ bytes.toList.drop 8)) := by
  rw [permute, Vector.toList_map, toList_eq_ofFn bytes]
  rfl

theorem toWire_toList (id : Guid) : id.toWire.toList = id.groups.form := by
  have hfirst : (id.bytes.toList.take 4).length = 4 := by simp
  have hsecond : ((id.bytes.toList.drop 4).take 2).length = 2 := by simp
  have hthird : ((id.bytes.toList.drop 6).take 2).length = 2 := by simp
  have htail : (id.bytes.drop 8).toList = id.bytes.toList.drop 8 := Vector.toList_drop
  rw [toWire, permute_toList, ← Scalar.bytes32_bigEndian hfirst,
    ← Scalar.bytes16_bigEndian hsecond, ← Scalar.bytes16_bigEndian hthird, ← htail]
  rfl

theorem length_form (id : Guid) : id.groups.form.length = 16 := by
  rw [← toWire_toList, Vector.length_toList]

theorem eq_of_groups {id id' : Guid} (h : id.groups = id'.groups) : id = id' := by
  have hwire : id.toWire.toList = id'.toWire.toList := by rw [toWire_toList, toWire_toList, h]
  rw [← ofWire_toWire id, Vector.toList_inj.1 hwire, ofWire_toWire]

variable {input : Input} {p q : Nat} {id : Guid}

theorem decode_yields :
    (Scalar.guid.decode.run input p).Yields id q ↔
      (input.bytes.drop p).take 16 = id.toWire.toList ∧ p + 16 = q := by
  refine Decoder.map_yields.trans ?_
  simp only [Decoder.block_yields]
  constructor
  · intro h
    obtain ⟨wire, h, rfl⟩ := h
    rwa [toWire_ofWire]
  · intro h
    exact ⟨id.toWire, h, ofWire_toWire id⟩

theorem wide_decode : Scalar.guid.decode.Wide 16 := Scalar.wide_decode rfl

theorem groups_of_decode (h : (Scalar.guid.decode.run input p).Yields id q) :
    (Groups.read.run input p).Yields id.groups q := by
  obtain ⟨hbytes, rfl⟩ := decode_yields.1 h
  have hprefix : id.groups.form <+: input.bytes.drop p := by
    rw [← toWire_toList, ← hbytes]
    exact List.take_prefix 16 _
  have hlen := id.length_form
  have hform := Groups.reads_read input.limits id.groups
  have hread := hform.of_prefix (by omega) hprefix
  rwa [hlen] at hread

/-- An identifier is read where its groups are. -/
theorem decode_yields_iff_groups :
    (Scalar.guid.decode.run input p).Yields id q ↔
      (Groups.read.run input p).Yields id.groups q := by
  constructor
  · exact groups_of_decode
  · intro h
    -- The bytes that the groups took make up some identifier; its groups tell that it is this one.
    obtain ⟨hleft, rfl⟩ := Groups.wide_read.of_yields h
    obtain ⟨id', hid⟩ := wide_decode.exists_yields hleft
    have heq := (groups_of_decode hid).unique h
    rwa [← eq_of_groups heq.1]

theorem toNat_groups (id : Guid) :
    id.groups.first.toNat = bigEndian (id.bytes.toList.take 4) ∧
    id.groups.second.toNat = bigEndian ((id.bytes.toList.drop 4).take 2) ∧
    id.groups.third.toNat = bigEndian ((id.bytes.toList.drop 6).take 2) := by
  have hfirst := bigEndian_lt (id.bytes.toList.take 4)
  have hsecond := bigEndian_lt ((id.bytes.toList.drop 4).take 2)
  have hthird := bigEndian_lt ((id.bytes.toList.drop 6).take 2)
  simp only [List.length_take, List.length_drop, Vector.length_toList] at hfirst hsecond hthird
  exact ⟨Nat.mod_eq_of_lt hfirst, Nat.mod_eq_of_lt hsecond, Nat.mod_eq_of_lt hthird⟩

/-- The wire form of identifiers is that of their groups. Whatever the buffer, an identifier is
written as the words of its first three groups, which are the numbers that its natural bytes make up
from the most significant one down, and the eight bytes behind them. At every position of every
input an identifier is read just where these words and bytes are, and some identifier is read
wherever 16 bytes are left. The two ways to rearrange 16 bytes undo each other. -/
theorem wire_layout :
    (∀ (id : Guid) (w : Writer), (Schema.scalar .guid).put id w = id.groups.put w) ∧
    (∀ id : Guid, id.groups.first.toNat = bigEndian (id.bytes.toList.take 4) ∧
      id.groups.second.toNat = bigEndian ((id.bytes.toList.drop 4).take 2) ∧
      id.groups.third.toNat = bigEndian ((id.bytes.toList.drop 6).take 2) ∧
      id.groups.tail.toList = id.bytes.toList.drop 8) ∧
    (∀ (input : Input) p id q, (Scalar.guid.decode.run input p).Yields id q ↔
      (Groups.read.run input p).Yields id.groups q) ∧
    (∀ (input : Input) p q, (∃ id, (Scalar.guid.decode.run input p).Yields id q) ↔
      16 ≤ input.remaining p ∧ q = p + 16) ∧
    (∀ id : Guid, ofWire id.toWire = id) ∧ ∀ bytes, (ofWire bytes).toWire = bytes := by
  refine ⟨fun id w => ?_, fun id => ?_, fun _ _ _ _ => decode_yields_iff_groups, wide_decode,
    ofWire_toWire, toWire_ofWire⟩
  · rw [Groups.put_eq, ← toWire_toList, Schema.put, Scalar.bytes]
  · obtain ⟨hfirst, hsecond, hthird⟩ := id.toNat_groups
    exact ⟨hfirst, hsecond, hthird, Vector.toList_drop⟩

example : (Songs.coltrane.2.1 : Guid).groups =
    ⟨0x00112233, 0x4455, 0x6677, #v[0x88, 0x99, 0xaa, 0xbb, 0xcc, 0xdd, 0xee, 0xff]⟩ := by
  decide

end Guid
end WireFormat
