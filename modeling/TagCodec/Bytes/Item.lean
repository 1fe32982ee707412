import TagCodec.Tag
import TagCodec.Bytes.Varint

namespace TagCodec

inductive Item
  | varint (n : UInt64)
  | sint32 (x : Int32)
  | tag (t : Tag)
  | bytes (bs : List UInt8)
  | text (s : String)
deriving DecidableEq

namespace Item

inductive Kind
  | varint | sint32 | tag | bytes | text
deriving DecidableEq, Repr

def kind : Item → Kind
  | varint _ => .varint
  | sint32 _ => .sint32
  | tag _ => .tag
  | bytes _ => .bytes
  | text _ => .text

/-- Bytes and text follow their length in bytes. A tag is written as a signed number. -/
def encode : Item → List UInt8
  | varint n => Varint.encode n.toNat
  | sint32 x => Varint.encode (Varint.zigzag x.toInt)
  | tag t => Varint.encode (Varint.zigzag t.toInt)
  | bytes bs => Varint.encode bs.length ++ bs
  | text s => Varint.encode s.utf8ByteSize ++ s.toUTF8.data.toList

end Item

end TagCodec
