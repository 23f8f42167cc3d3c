import NymphRpc.Types.Sizes

/-!
# Objects behind pointers

`setValue` changes an object in place, while the arrays and structs that hold a pointer to it
keep the size they recorded. The objects of an application are a list here, in which a pointer
is a position; following the pointers of an object gives the value that `serialize()` walks, if
they do not lead back to the object.
-/

namespace NymphRpc

open LittleEndian NymphType

/-- An entry of a struct's map: its map key, and the pointers to its key and value objects. -/
structure PairPtr where
  name : Bytes
  key : ℕ
  value : ℕ

/-- The type of an object with the matching member of `DataUnion`. -/
inductive DataUnion
  | null
  | boolean (b : Bool)
  | scalar (k : Scalar) (bits : BitVec (8 * k.width))
  | chars (chars : CharPtr)
  | vector (elements : List ℕ)
  | pairs (ps : List PairPtr)

/-- The pointers in the union. -/
def DataUnion.pointers : DataUnion → List ℕ
  | null | boolean _ | scalar _ _ | chars _ => []
  | vector elements => elements
  | pairs ps => ps.flatMap fun p => [p.key, p.value]

/-- A `NymphType` in memory. -/
structure Object where
  members : Members
  data : DataUnion

/-- What a constructor, and likewise `setValue`, is called with. -/
inductive Argument
  | bool (v : Bool)
  | scalar (k : Scalar) (v : BitVec (8 * k.width))
  | chars (v : Bytes) (bytes : UInt32) (own : Bool)
  | string (v : Bytes) (own : Bool)
  | vector (v : List ℕ) (own : Bool)
  | pairs (v : List PairPtr) (own : Bool)

/-- The union an object has after the call. -/
def Argument.data : Argument → DataUnion
  | bool v => .boolean v
  | scalar k v => .scalar k v
  | chars v _ _ | string v _ => .chars (.block v 0)
  | vector v _ => .vector v
  | pairs v _ => .pairs v

/-- The objects of an application. -/
abbrev Objects := List Object

namespace Objects

/-- `bytes()` of the object behind a pointer. -/
def bytes (objs : Objects) (p : ℕ) : UInt64 := (objs[p]?.map fun o => o.members.length).getD 0

/-- The loop that adds the sizes of the elements to the `length` of an object. The object reads the
length it has so far where it is an element of itself. -/
def addBytes (objs : Objects) (p : ℕ) (length : UInt64) : List ℕ → UInt64
  | [] => length
  | c :: cs => addBytes objs p (length + if c = p then length else objs.bytes c) cs

/-- The members of an object after `setValue`. -/
def setMembers (objs : Objects) (p : ℕ) (m : Members) : Argument → Members
  | .bool _ => { m with length := 1 }
  | .scalar k _ => { m with length := .ofNat (1 + k.width) }
  | .chars _ bytes own =>
    { m with
      length := binaryStringLength bytes.toUInt64
      strLength := bytes
      emptyString := m.emptyString || decide (bytes = 0)
      own := own }
  | .string v own =>
    { m with
      length := binaryStringLength (.ofNat v.length)
      strLength := .ofNat v.length
      emptyString := m.emptyString || decide (UInt32.ofNat v.length = 0)
      own := own }
  | .vector v own => { m with length := addBytes objs p 0 v + 10, own := own }
  | .pairs v own =>
    { m with length := addBytes objs p 0 (v.flatMap fun p => [p.key, p.value]) + 2, own := own }

/-- `setValue`. -/
def setValue (objs : Objects) (p : ℕ) (a : Argument) : Objects :=
  objs.modify p fun o => ⟨setMembers objs p o.members a, a.data⟩

/-- `NymphType()`. -/
def new (objs : Objects) (u : Uninit) : Objects :=
  objs ++ [⟨⟨u.length, u.strLength, false, false, false⟩, .null⟩]

/-- The other constructors, which set the value of a new object. -/
def make (objs : Objects) (u : Uninit) (a : Argument) : Objects :=
  (objs.new u).setValue objs.length a

/-- The value behind a pointer, found by following at most `fuel` pointers in a row. -/
def follow (objs : Objects) : ℕ → ℕ → Option NymphType
  | 0, _ => none
  | fuel + 1, p => objs[p]?.bind fun o =>
    match o.data with
    | .null => some (.null o.members)
    | .boolean b => some (.boolean o.members b)
    | .scalar k bits => some (.scalar o.members k bits)
    | .chars chars => some (.string o.members chars)
    | .vector elements => (elements.mapM (follow objs fuel)).map (.array o.members)
    | .pairs ps =>
      (ps.mapM fun p => (follow objs fuel p.key).bind fun key =>
        (follow objs fuel p.value).map (.mk p.name key)).map (.struct o.members)

/-- Serialising the object behind a pointer comes to an end, and writes as many bytes as its
`bytes()`. -/
def Exact (objs : Objects) (p : ℕ) : Prop :=
  ∃ fuel t, objs.follow fuel p = some t ∧ t.serialize.length = (objs.bytes p).toNat

/-- The recorded sizes behind pointers, not cut to 64 bits. -/
def sizes (objs : Objects) (ps : List ℕ) : ℕ := (ps.map fun c => (objs.bytes c).toNat).sum

end Objects

namespace Argument

variable (objs : Objects)

/-- The call is defined: its pointers are those of objects, its characters exist, and a
`std::string` is shorter than 2^63. -/
def Defined : Argument → Prop
  | bool _ | scalar _ _ => True
  | chars v bytes _ => bytes.toNat ≤ v.length
  | string v _ => v.length < 2 ^ 63
  | vector v _ => ∀ c ∈ v, c < objs.length
  | pairs v _ => ∀ p ∈ v, p.key < objs.length ∧ p.value < objs.length

/-- The size that the argument has on the wire. -/
def size : Argument → ℕ
  | bool _ => 1
  | scalar k _ => 1 + k.width
  | chars _ bytes _ => Value.stringSize bytes.toNat
  | string v _ => Value.stringSize v.length
  | vector v _ => objs.sizes v + 10
  | pairs v _ => objs.sizes (v.flatMap fun p => [p.key, p.value]) + 2

/-- The argument is no empty string and no string from 2^32 characters on, and its size fits 64
bits. -/
def Sizable : Argument → Prop
  | bool _ | scalar _ _ => True
  | chars _ bytes _ => bytes ≠ 0
  | string v _ => v ≠ [] ∧ v.length < 2 ^ 32
  | vector v own => (vector v own).size objs < 2 ^ 64
  | pairs v own => (pairs v own).size objs < 2 ^ 64

end Argument

/-- What an application does with its objects. -/
inductive ObjectCall
  | new (u : Uninit)
  | make (u : Uninit) (a : Argument)
  | setValue (p : ℕ) (a : Argument)

namespace ObjectCall

/-- The objects after a call. -/
def apply (objs : Objects) : ObjectCall → Objects
  | new u => objs.new u
  | make u a => objs.make u a
  | setValue p a => objs.setValue p a

/-- The call is made with pointers of objects. -/
def Defined (objs : Objects) : ObjectCall → Prop
  | new _ => True
  | make _ a => a.Defined objs
  | setValue p a => p < objs.length ∧ a.Defined objs

/-- The call sets no value whose size is recorded wrongly, and keeps the size of an object that
another holds a pointer to. -/
def KeepsSizes (objs : Objects) : ObjectCall → Prop
  | new u => u.length = 0
  | make _ a => a.Sizable objs
  | setValue p a => a.Sizable objs ∧ p ∉ a.data.pointers ∧
      ((∃ o ∈ objs, p ∈ o.data.pointers) → a.size objs = (objs.bytes p).toNat)

end ObjectCall

/-- The objects after a run of defined calls that all have a property. -/
inductive Objects.Reached (P : Objects → ObjectCall → Prop) : Objects → Prop
  | init : Reached P []
  | call {objs} (c) (h : Reached P objs) (hdefined : c.Defined objs) (hc : P objs c) :
      Reached P (c.apply objs)

end NymphRpc
