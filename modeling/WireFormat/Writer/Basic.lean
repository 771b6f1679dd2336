import WireFormat.IntegerCodec

/-! Writing to a buffer that only grows, except that a reserved message length is filled in
once the body behind it is known. -/
namespace WireFormat

structure Writer where
  bytes : List UInt8
  deriving DecidableEq, Repr

/-- A place in the buffer that was set aside for a message length. -/
structure Placeholder where
  position : Nat
  deriving DecidableEq, Repr

namespace Writer

def empty : Writer := ⟨[]⟩

def size (w : Writer) : Nat := w.bytes.length

def append (w : Writer) (bytes : List UInt8) : Writer := ⟨w.bytes ++ bytes⟩

def lengthBytes (n : Nat) : List UInt8 := (IntegerCodec.selected.put32 (UInt32.ofNat n)).toList

def count (w : Writer) (n : Nat) : Writer := w.append (lengthBytes n)

def counted (w : Writer) (bytes : List UInt8) : Writer := (w.count bytes.length).append bytes

/-- The index before a field of an indexed body. -/
def fieldIndex (w : Writer) (index : UInt8) : Writer := w.append [index]

/-- The zero after the last field of an indexed body. -/
def endFields (w : Writer) : Writer := w.append [0]

/-- Sets four bytes aside at the end. -/
def reserve (w : Writer) : Placeholder × Writer := (⟨w.size⟩, w.append (lengthBytes 0))

/-- Overwrites a placeholder with the number of bytes after it. -/
def patch (w : Writer) (p : Placeholder) : Writer :=
  ⟨w.bytes.take p.position ++ lengthBytes (w.size - p.position - 4) ++ w.bytes.drop (p.position + 4)⟩

/-- Fills a placeholder, unless the buffer no longer reaches to its end. -/
def fill? (w : Writer) (p : Placeholder) : Option Writer :=
  if w.size < p.position + 4 then none else some (w.patch p)

/-- A framed message: its length is filled in after its body. -/
def message (w : Writer) (body : Writer → Writer) : Writer :=
  let (p, opened) := w.reserve
  (body opened).patch p

end Writer
end WireFormat
