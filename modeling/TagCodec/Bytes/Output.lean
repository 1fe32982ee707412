import TagCodec.Bytes.Item

namespace TagCodec

structure Output where
  bytes : Array UInt8
deriving DecidableEq

namespace Output

def empty : Output := ⟨#[]⟩

def toList (out : Output) : List UInt8 := out.bytes.toList

def size (out : Output) : Nat := out.bytes.size

def put (out : Output) (item : Item) : Output := ⟨out.bytes ++ item.encode⟩

@[simp] theorem toList_empty : empty.toList = [] := rfl

@[simp] theorem toList_put (out : Output) (item : Item) :
    (out.put item).toList = out.toList ++ item.encode := by
  simp [put, toList]

theorem toList_foldl_put (items : List Item) (out : Output) :
    (items.foldl put out).toList = out.toList ++ items.flatMap Item.encode := by
  induction items generalizing out with
  | nil => simp
  | cons item items ih => rw [List.foldl_cons, ih, toList_put, List.flatMap_cons, List.append_assoc]

end Output

end TagCodec
