import NextBoot.Wim.Metadata

namespace NextBoot.Boot.DevicePaths

open Bytes Strings
open Wim (utf16Units)

/-- A node of a device path; its length field counts the header too. -/
structure Node where
  type : UInt8
  subtype : UInt8
  data : List UInt8
  length_lt : 4 + data.length < 2 ^ 16

def Node.bytes (n : Node) : List UInt8 := n.type :: n.subtype :: toLeBytes 2 (4 + n.data.length) ++ n.data

def Node.IsFilePath (n : Node) : Prop := n.type = 0x04 ∧ n.subtype = 0x04

def Node.IsEnd (n : Node) : Prop := n.type = 0x7F

instance (n : Node) : Decidable n.IsFilePath := inferInstanceAs (Decidable (_ ∧ _))

instance (n : Node) : Decidable n.IsEnd := inferInstanceAs (Decidable (_ = _))

/-- The node that ends a whole device path. -/
def endDevicePath : List UInt8 := [0x7F, 0xFF, 4, 0]

def nodeBytes (nodes : List Node) : List UInt8 := nodes.flatMap Node.bytes

section encoder

/-- `normalize_uefi_file_path`: backslashes for both separators, and one in front. -/
def normalizeUefiFilePath (path : Text) : List Nat :=
  (if path.head? ≠ some '\\' ∧ path.head? ≠ some '/' then [('\\' : Char).toNat] else []) ++
    path.flatMap fun c => utf16Units (if c = '/' then '\\' else c)

/-- `FilePathDevicePath::new`, whose length field keeps the low sixteen bits of the size. -/
def filePathDevicePath (path : List Nat) : List UInt8 :=
  let totalSize := 4 + (path.length + 1) * 2
  0x04 :: 0x04 :: toLeBytes 2 totalSize ++ (path.flatMap (toLeBytes 2) ++ [0, 0])

def appendFilePathDevicePath (base : List UInt8) (path : Text) : Option (List UInt8) :=
  if base.length < endDevicePath.length ∨ base.drop (base.length - endDevicePath.length) ≠ endDevicePath then none
  else some (base.take (base.length - endDevicePath.length) ++ filePathDevicePath (normalizeUefiFilePath path) ++
    endDevicePath)

end encoder

section decoder

variable (memory : Nat → UInt8)

/-- A 16-bit word in memory. -/
def readUnit (address : Nat) : Nat := fromLeBytes [memory address, memory (address + 1)]

/-- The character of one UTF-16 unit, taken alone. -/
def decodeUnit (unit : Nat) : Char :=
  let ch := (charFromU32 unit).getD replacementChar
  if ch = '\\' then '/' else ch

/-- The characters of a file path node, up to a zero or to its end. -/
def readName (address : Nat) : Nat → Text
  | 0 => []
  | units + 1 =>
      if readUnit memory address = 0 then []
      else decodeUnit (readUnit memory address) :: readName (address + 2) units

/-- The walk over the nodes from one on, with the rounds left and the path read so far; `none` is the early return. -/
def walkNodes : Nat → Nat → Text → Option Text
  | 0, _, path => some path
  | rounds + 1, node, path =>
      let length := readUnit memory (node + 2)
      if length < 4 then none
      else if memory node = 0x7F then some path
      else if memory node = 0x04 ∧ memory (node + 1) = 0x04 then
        walkNodes rounds (node + length) (path ++ readName memory (node + 4) ((length - 4) / 2))
      else walkNodes rounds (node + length) path

end decoder

/-- The bytes stand in memory from an address on. -/
def Holds (memory : Nat → UInt8) (address : Nat) (bytes : List UInt8) : Prop :=
  ∀ i b, bytes[i]? = some b → memory (address + i) = b

variable {memory : Nat → UInt8} {address value rounds : Nat} {b : UInt8} {bytes more : List UInt8} {n : Node}
  {nodes : List Node} {path : Text} {units : List Nat}

theorem holds_cons : Holds memory address (b :: bytes) ↔ memory address = b ∧ Holds memory (address + 1) bytes := by
  constructor
  · intro h
    refine ⟨h 0 b rfl, fun i c hc => ?_⟩
    rw [Nat.add_assoc, Nat.add_comm 1]
    exact h (i + 1) c hc
  · rintro ⟨hfirst, hrest⟩ i c hc
    cases i with
    | zero =>
        rw [List.getElem?_cons_zero, Option.some.injEq] at hc
        rw [← hc]
        exact hfirst
    | succ i =>
        rw [Nat.add_comm i, ← Nat.add_assoc]
        exact hrest i c hc

theorem holds_append :
    Holds memory address (bytes ++ more) ↔ Holds memory address bytes ∧ Holds memory (address + bytes.length) more := by
  induction bytes generalizing address with
  | nil => exact ⟨fun h => ⟨fun i b hb => by simp at hb, h⟩, fun h => h.2⟩
  | cons b bytes ih =>
      rw [List.cons_append, holds_cons, holds_cons, ih, List.length_cons, and_assoc, Nat.add_right_comm, ← Nat.add_assoc]

theorem holds_readUnit (h : Holds memory address (toLeBytes 2 value)) (hlt : value < 2 ^ 16) :
    readUnit memory address = value := by
  have hbytes : toLeBytes 2 value = [memory address, memory (address + 1)] := by
    simp only [toLeBytes, holds_cons] at h ⊢
    rw [h.1, h.2.1]
  rw [readUnit, ← hbytes, fromLeBytes_toLeBytes, Nat.mod_eq_of_lt (by omega)]

theorem node_length (n : Node) : n.bytes.length = 4 + n.data.length := by
  simp only [Node.bytes, List.cons_append, List.length_cons, List.length_append, length_toLeBytes]
  omega

/-- What memory holds where a node stands. -/
theorem Holds.node (h : Holds memory address (n.bytes ++ more)) :
    memory address = n.type ∧ memory (address + 1) = n.subtype ∧ readUnit memory (address + 2) = 4 + n.data.length ∧
      Holds memory (address + 4) n.data ∧ Holds memory (address + (4 + n.data.length)) more := by
  rw [holds_append, node_length] at h
  obtain ⟨hnode, hmore⟩ := h
  simp only [Node.bytes, List.cons_append, holds_cons] at hnode
  obtain ⟨htype, hsubtype, hrest⟩ := hnode
  rw [holds_append, length_toLeBytes] at hrest
  exact ⟨htype, hsubtype, holds_readUnit hrest.1 n.length_lt, hrest.2, hmore⟩

theorem holds_endDevicePath (h : Holds memory address endDevicePath) :
    memory address = 0x7F ∧ readUnit memory (address + 2) = 4 := by
  simp only [endDevicePath, holds_cons] at h
  obtain ⟨htype, -, hlo, hhi, -⟩ := h
  refine ⟨htype, ?_⟩
  have hhi' : memory (address + 2 + 1) = 0 := hhi
  have hlo' : memory (address + 2) = 4 := hlo
  rw [readUnit, hlo', hhi']
  rfl

/-- A zero behind units that are not zero ends the name. -/
theorem readName_eq (hpos : ∀ unit ∈ units, unit ≠ 0 ∧ unit < 2 ^ 16)
    (h : Holds memory address (units.flatMap (toLeBytes 2) ++ [0, 0])) :
    readName memory address (units.length + 1) = units.map decodeUnit := by
  induction units generalizing address with
  | nil =>
      have hzero : readUnit memory address = 0 := @holds_readUnit memory address 0 h (by decide)
      rw [List.length_nil, readName, if_pos hzero]
      rfl
  | cons unit units ih =>
      rw [List.forall_mem_cons] at hpos
      rw [List.flatMap_cons, List.append_assoc, holds_append, length_toLeBytes] at h
      rw [List.length_cons, readName, holds_readUnit h.1 hpos.1.2, if_neg hpos.1.1, ih hpos.2 h.2]
      rfl

/-- A node that is no file path and no end is passed over. -/
theorem walkNodes_node (h : Holds memory address (n.bytes ++ more)) (hend : ¬ n.IsEnd) (hfile : ¬ n.IsFilePath) :
    walkNodes memory (rounds + 1) address path = walkNodes memory rounds (address + (4 + n.data.length)) path := by
  obtain ⟨htype, hsubtype, hlength, -, -⟩ := h.node
  have hnot : ¬ n.type = 0x7F := hend
  have hnone : ¬ (n.type = 0x04 ∧ n.subtype = 0x04) := hfile
  rw [walkNodes, hlength, htype, hsubtype, if_neg (by omega), if_neg hnot, if_neg hnone]

/-- The walk over nodes of a device path none of which is a file path: it reaches what is behind them, unless one of
them is an end. -/
theorem walkNodes_nodes (h : Holds memory address (nodeBytes nodes ++ more)) (hfile : ∀ n ∈ nodes, ¬ n.IsFilePath) :
    walkNodes memory (nodes.length + rounds) address path =
      if ∀ n ∈ nodes, ¬ n.IsEnd then walkNodes memory rounds (address + (nodeBytes nodes).length) path else some path := by
  induction nodes generalizing address with
  | nil =>
      rw [if_pos (by simp), List.length_nil, Nat.zero_add]
      rfl
  | cons n nodes ih =>
      rw [List.forall_mem_cons] at hfile
      rw [nodeBytes, List.flatMap_cons, List.append_assoc] at h
      obtain ⟨htype, -, hlength, -, hrest⟩ := h.node
      rw [List.length_cons, Nat.add_right_comm]
      by_cases hend : n.IsEnd
      · have htype' : n.type = 0x7F := hend
        rw [if_neg (fun hall => hall n List.mem_cons_self hend), walkNodes, hlength, htype, if_neg (by omega),
          if_pos htype']
      · have hall : (∀ m ∈ n :: nodes, ¬ m.IsEnd) ↔ ∀ m ∈ nodes, ¬ m.IsEnd := by
          rw [List.forall_mem_cons]
          exact and_iff_right hend
        rw [walkNodes_node h hend hfile.1, ih hrest hfile.2]
        simp only [hall]
        have hlen : (nodeBytes (n :: nodes)).length = 4 + n.data.length + (nodeBytes nodes).length := by
          rw [nodeBytes, List.flatMap_cons, List.length_append, node_length]
          rfl
        rw [hlen, Nat.add_assoc]

end NextBoot.Boot.DevicePaths
