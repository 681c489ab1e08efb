import NextBoot.Bytes
import NextBoot.Faults

namespace NextBoot.Lzx

open Bytes Faults

def lzxWimMagicFilesize : Int := 12000000

abbrev IsI32 (value : Int) : Prop := -2 ^ 31 ≤ value ∧ value < 2 ^ 31

/-- The cast to a signed value of 32 bits. -/
def toI32 (value : Nat) : Int :=
  if value % 2 ^ 32 < 2 ^ 31 then ((value % 2 ^ 32 : Nat) : Int) else ((value % 2 ^ 32 : Nat) : Int) - 2 ^ 32

def i32FromLeBytes (bytes : List UInt8) : Int := toI32 (fromLeBytes bytes)

def i32ToLeBytes (value : Int) : List UInt8 := toLeBytes 4 (value % 2 ^ 32).toNat

/-- What a build does where a signed operation leaves its 32 bits. -/
inductive Overflow where
  | panics
  | wraps

def Overflow.narrow : Overflow → Int → Option Int
  | panics, value => if IsI32 value then some value else none
  | wraps, value => some (toI32 (value % 2 ^ 32).toNat)

section translate

variable {ε : Type} (overflow : Overflow)

def translateTarget (offset : Nat) (target : Int) : Outcome ε Int :=
  if 0 ≤ target then
    if target < lzxWimMagicFilesize then Outcome.ofOption (overflow.narrow (target - toI32 offset))
    else pure target
  else do
    let least ← Outcome.ofOption (overflow.narrow (-toI32 offset))
    if least ≤ target then Outcome.ofOption (overflow.narrow (target + lzxWimMagicFilesize))
    else pure target

/-- The scan of the output; each round moves on by at least one byte. -/
def translateLoop (outputOffset : Nat) : Nat → Nat → List UInt8 → Outcome ε (List UInt8)
  | 0, _, output => pure output
  | fuel + 1, offset, output =>
      if outputOffset - 10 ≤ offset then pure output
      else do
        let byte ← Outcome.ofOption output[offset]?
        if byte = 0xE8 then do
          let bytes ← Outcome.ofOption (slice output (offset + 1) 4)
          let target ← translateTarget overflow offset (i32FromLeBytes bytes)
          let output ← Outcome.ofOption (copyFromSlice output (offset + 1) (i32ToLeBytes target))
          translateLoop outputOffset fuel (offset + 5) output
        else translateLoop outputOffset fuel (offset + 1) output

def translateJumps (output : List UInt8) (outputOffset : Nat) : Outcome ε (List UInt8) :=
  if outputOffset < 10 then pure output else translateLoop overflow outputOffset outputOffset 0 output

end translate

/-- A scan from left to right over all but the last ten bytes, which changes the four bytes behind each `0xE8` and goes
on behind them. -/
def jumpPass (target : Nat → Int → Int) (position : Nat) (bytes : List UInt8) : List UInt8 :=
  match bytes with
  | [] => []
  | byte :: rest =>
      if rest.length < 10 then byte :: rest
      else if byte = 0xE8 then
        byte :: (i32ToLeBytes (target position (i32FromLeBytes (rest.take 4))) ++
          jumpPass target (position + 5) (rest.drop 4))
      else byte :: jumpPass target (position + 1) rest
termination_by bytes.length
decreasing_by
  · rw [List.length_drop, List.length_cons]
    omega
  · exact Nat.lt_succ_self _

/-- What the encoder makes of the relative target of a jump. -/
def absoluteTarget (position : Nat) (target : Int) : Int :=
  if 0 ≤ target + position ∧ target + position < lzxWimMagicFilesize then target + position
  else if lzxWimMagicFilesize ≤ target + position ∧ target < lzxWimMagicFilesize then target - lzxWimMagicFilesize
  else target

/-- What the decoder makes of it, in exact arithmetic. -/
def relativeTarget (position : Nat) (target : Int) : Int :=
  if 0 ≤ target then if target < lzxWimMagicFilesize then target - position else target
  else if -position ≤ target then target + lzxWimMagicFilesize else target

variable {ε : Type} {overflow : Overflow} {position : Nat} {target : Int} {f g : Nat → Int → Int}
  {bytes rest front room : List UInt8}

theorem isI32_toI32 (value : Nat) : IsI32 (toI32 value) := by
  rw [toI32]
  split <;> constructor <;> omega

theorem toI32_emod (h : IsI32 target) : toI32 (target % 2 ^ 32).toNat = target := by
  obtain ⟨hlo, hhi⟩ := h
  rw [toI32]
  split <;> omega

theorem toI32_small (h : position < 2 ^ 31) : toI32 position = position := by
  rw [toI32, if_pos] <;> omega

theorem narrow_of_isI32 (h : IsI32 target) : overflow.narrow target = some target := by
  cases overflow with
  | panics => exact if_pos h
  | wraps => exact congrArg some (toI32_emod h)

theorem i32FromLeBytes_i32ToLeBytes (h : IsI32 target) : i32FromLeBytes (i32ToLeBytes target) = target := by
  have hmod : (target % 2 ^ 32).toNat % 256 ^ 4 = (target % 2 ^ 32).toNat := Nat.mod_eq_of_lt (by omega)
  rw [i32FromLeBytes, i32ToLeBytes, fromLeBytes_toLeBytes, hmod, toI32_emod h]

theorem i32ToLeBytes_i32FromLeBytes (h : bytes.length = 4) : i32ToLeBytes (i32FromLeBytes bytes) = bytes := by
  have hlt := fromLeBytes_lt bytes
  rw [h] at hlt
  have hvalue : (toI32 (fromLeBytes bytes) % 2 ^ 32).toNat = fromLeBytes bytes := by
    rw [toI32]
    split <;> omega
  rw [i32ToLeBytes, i32FromLeBytes, hvalue, ← h, toLeBytes_fromLeBytes]

theorem length_i32ToLeBytes : (i32ToLeBytes target).length = 4 := length_toLeBytes 4 _

theorem isI32_absoluteTarget (hposition : position < 2 ^ 31) (h : IsI32 target) : IsI32 (absoluteTarget position target) := by
  obtain ⟨hlo, hhi⟩ := h
  rw [absoluteTarget, lzxWimMagicFilesize]
  split
  · constructor <;> omega
  · split <;> constructor <;> omega

theorem isI32_relativeTarget (hposition : position < 2 ^ 31) (h : IsI32 target) : IsI32 (relativeTarget position target) := by
  obtain ⟨hlo, hhi⟩ := h
  rw [relativeTarget, lzxWimMagicFilesize]
  split
  · split <;> constructor <;> omega
  · split <;> constructor <;> omega

/-- The decoder takes back what the encoder has done to one target. -/
theorem relativeTarget_absoluteTarget : relativeTarget position (absoluteTarget position target) = target := by
  rw [absoluteTarget, lzxWimMagicFilesize]
  split
  · rw [relativeTarget, lzxWimMagicFilesize, if_pos (by omega), if_pos (by omega)]
    omega
  · split
    · rw [relativeTarget, lzxWimMagicFilesize, if_neg (by omega), if_pos (by omega)]
      omega
    · rw [relativeTarget, lzxWimMagicFilesize]
      split
      · rw [if_neg (by omega)]
      · rw [if_neg (by omega)]

theorem translateTarget_eq (hposition : position < 2 ^ 31) (h : IsI32 target) :
    (translateTarget overflow position target : Outcome ε Int) = .value (relativeTarget position target) := by
  have hrange := isI32_relativeTarget hposition h
  rw [relativeTarget] at hrange ⊢
  rw [translateTarget, toI32_small hposition]
  split
  · rename_i hpos
    rw [if_pos hpos] at hrange
    split
    · rename_i hsmall
      rw [if_pos hsmall] at hrange
      rw [narrow_of_isI32 hrange, Outcome.ofOption_some]
    · rfl
  · rename_i hneg
    rw [if_neg hneg] at hrange
    have hleast : IsI32 (-(position : Int)) := by constructor <;> omega
    rw [narrow_of_isI32 hleast, Outcome.ofOption_some, Outcome.value_bind]
    split
    · rename_i hle
      rw [if_pos hle] at hrange
      rw [narrow_of_isI32 hrange, Outcome.ofOption_some]
    · rfl

theorem length_jumpPass : (jumpPass f position bytes).length = bytes.length := by
  induction position, bytes using jumpPass.induct with
  | case1 position => rw [jumpPass]
  | case2 position byte rest hshort => rw [jumpPass, if_pos hshort]
  | case3 position rest hlong ih =>
      rw [List.length_drop] at ih
      rw [jumpPass, if_neg hlong, if_pos rfl, List.length_cons, List.length_append, length_i32ToLeBytes, ih,
        List.length_cons]
      omega
  | case4 position byte rest hlong hplain ih =>
      rw [jumpPass, if_neg hlong, if_neg hplain, List.length_cons, ih, List.length_cons]

/-- Two passes stop at the same bytes, so that one takes back the other when it does so at every target. -/
theorem jumpPass_jumpPass {limit : Nat} (hrange : ∀ p < limit, ∀ t, IsI32 t → IsI32 (f p t))
    (hinverse : ∀ p < limit, ∀ t, IsI32 t → g p (f p t) = t) (hlen : position + bytes.length ≤ limit) :
    jumpPass g position (jumpPass f position bytes) = bytes := by
  induction position, bytes using jumpPass.induct with
  | case1 position => rw [jumpPass, jumpPass]
  | case2 position byte rest hshort =>
      have hsame : ∀ h, jumpPass h position (byte :: rest) = byte :: rest := fun h => by rw [jumpPass, if_pos hshort]
      rw [hsame, hsame]
  | case3 position rest hlong ih =>
      rw [List.length_cons] at hlen
      have htaken : (rest.take 4).length = 4 := List.length_take_of_le (by omega)
      have htarget : IsI32 (i32FromLeBytes (rest.take 4)) := isI32_toI32 _
      have hf : jumpPass f position (0xE8 :: rest) = 0xE8 :: (i32ToLeBytes (f position (i32FromLeBytes (rest.take 4))) ++
          jumpPass f (position + 5) (rest.drop 4)) := by
        rw [jumpPass, if_neg hlong, if_pos rfl]
      rw [hf, jumpPass, if_neg, if_pos rfl, List.take_left' length_i32ToLeBytes, List.drop_left' length_i32ToLeBytes,
        ih (by rw [List.length_drop]; omega), i32FromLeBytes_i32ToLeBytes (hrange position (by omega) _ htarget),
        hinverse position (by omega) _ htarget, i32ToLeBytes_i32FromLeBytes htaken, List.take_append_drop]
      rw [List.length_append, length_i32ToLeBytes, length_jumpPass, List.length_drop]
      omega
  | case4 position byte rest hlong hplain ih =>
      rw [List.length_cons] at hlen
      have hf : jumpPass f position (byte :: rest) = byte :: jumpPass f (position + 1) rest := by
        rw [jumpPass, if_neg hlong, if_neg hplain]
      rw [hf, jumpPass, length_jumpPass, if_neg hlong, if_neg hplain, ih (by omega)]

theorem jumpPass_short (h : bytes.length ≤ 10) : jumpPass f position bytes = bytes := by
  cases bytes with
  | nil => rw [jumpPass]
  | cons byte rest => rw [jumpPass, if_pos (Nat.lt_of_succ_le h)]

/-- The scan in place is the pass over what it has not reached yet. -/
theorem translateLoop_pass {fuel stop : Nat} (hstop : front.length + bytes.length = stop) (hfuel : bytes.length ≤ fuel + 10)
    (htarget : ∀ p < stop, ∀ t, IsI32 t → (translateTarget overflow p t : Outcome ε Int) = .value (f p t))
    (hmany : 10 ≤ stop) :
    (translateLoop overflow stop fuel front.length (front ++ (bytes ++ room)) : Outcome ε (List UInt8)) =
      .value (front ++ (jumpPass f front.length bytes ++ room)) := by
  induction fuel generalizing front bytes with
  | zero =>
      rw [translateLoop, jumpPass_short (by omega)]
      rfl
  | succ fuel ih =>
      rw [translateLoop]
      by_cases hdone : stop - 10 ≤ front.length
      · rw [if_pos hdone, jumpPass_short (by omega)]
        rfl
      · obtain ⟨byte, rest, rfl⟩ : ∃ byte rest, bytes = byte :: rest := List.exists_cons_of_length_pos (by omega)
        rw [List.length_cons] at hstop hfuel
        have hlong : ¬ rest.length < 10 := by omega
        have hbyte : (front ++ (byte :: rest ++ room))[front.length]? = some byte := by
          rw [List.getElem?_append_right (Nat.le_refl _), Nat.sub_self, List.cons_append, List.getElem?_cons_zero]
        rw [if_neg hdone, hbyte, Outcome.ofOption_some, Outcome.value_bind, jumpPass, if_neg hlong]
        by_cases hjump : byte = 0xE8
        · subst hjump
          have hword : IsI32 (i32FromLeBytes (rest.take 4)) := isI32_toI32 _
          have hoperand : (rest.take 4).length = 4 := List.length_take_of_le (by omega)
          have hopcode : (front ++ [0xE8]).length = front.length + 1 := by
            rw [List.length_append, List.length_singleton]
          have hsplit : front ++ (0xE8 :: rest ++ room) = (front ++ [0xE8]) ++ (rest.take 4 ++ (rest.drop 4 ++ room)) := by
            rw [← List.append_assoc (rest.take 4), List.take_append_drop, List.append_assoc, List.cons_append,
              List.singleton_append]
          rw [if_pos rfl, if_pos rfl, hsplit, slice_middle hopcode hoperand, Outcome.ofOption_some, Outcome.value_bind,
            htarget _ (by omega) _ hword, Outcome.value_bind,
            copyFromSlice_middle hopcode (length_i32ToLeBytes.trans hoperand.symm), Outcome.ofOption_some,
            Outcome.value_bind, ← List.append_assoc]
          have hfront (new : List UInt8) (hnew : new.length = 4) : (front ++ [0xE8] ++ new).length = front.length + 5 := by
            rw [List.length_append, hopcode, hnew]
          rw [← hfront _ length_i32ToLeBytes, ih]
          · simp only [List.append_assoc, List.cons_append, List.nil_append]
          · rw [hfront _ length_i32ToLeBytes, List.length_drop]
            omega
          · rw [List.length_drop]
            omega
        · have hfront : (front ++ [byte]).length = front.length + 1 := by
            rw [List.length_append, List.length_singleton]
          have hsplit : front ++ (byte :: rest ++ room) = (front ++ [byte]) ++ (rest ++ room) := by
            rw [List.append_assoc, List.cons_append, List.singleton_append]
          rw [if_neg hjump, if_neg hjump, hsplit, ← hfront, ih (by rw [hfront]; omega) (by omega), List.append_assoc,
            List.singleton_append, List.cons_append]

/-- What the decoder makes of a target where its arithmetic wraps around. -/
def wrappedTarget (position : Nat) (target : Int) : Int :=
  if 0 ≤ target then
    if target < lzxWimMagicFilesize then toI32 ((target - toI32 position) % 2 ^ 32).toNat else target
  else if toI32 (-toI32 position % 2 ^ 32).toNat ≤ target then toI32 ((target + lzxWimMagicFilesize) % 2 ^ 32).toNat
  else target

theorem translateTarget_wraps : (translateTarget .wraps position target : Outcome ε Int) =
    .value (wrappedTarget position target) := by
  rw [translateTarget, wrappedTarget]
  split
  · split <;> rfl
  · rw [Overflow.narrow, Outcome.ofOption_some, Outcome.value_bind]
    split <;> rfl

/-- Translating the jumps changes the bytes that have been put out, and none behind them. -/
theorem translateJumps_of_target (htarget : ∀ p < bytes.length, ∀ t, IsI32 t →
      (translateTarget overflow p t : Outcome ε Int) = .value (f p t)) :
    (translateJumps overflow (bytes ++ room) bytes.length : Outcome ε (List UInt8)) =
      .value (jumpPass f 0 bytes ++ room) := by
  rw [translateJumps]
  split
  · rw [jumpPass_short (by omega)]
    rfl
  · exact @translateLoop_pass ε overflow f bytes [] room bytes.length bytes.length (Nat.zero_add _) (by omega) htarget
      (by omega)

/-- Translating the jumps of an encoded buffer restores it, and no signed operation on the way overflows. -/
theorem translateJumps_jumpPass (overflow : Overflow) (bytes room : List UInt8) (hlen : bytes.length < 2 ^ 31) :
    (translateJumps overflow (jumpPass absoluteTarget 0 bytes ++ room) bytes.length : Outcome ε (List UInt8)) =
      .value (bytes ++ room) := by
  have htranslated : (translateJumps overflow (jumpPass absoluteTarget 0 bytes ++ room)
      (jumpPass absoluteTarget 0 bytes).length : Outcome ε (List UInt8)) = .value (jumpPass relativeTarget 0 (jumpPass absoluteTarget 0 bytes) ++ room) := by
    apply translateJumps_of_target
    intro p hp t ht
    rw [length_jumpPass] at hp
    exact translateTarget_eq (by omega) ht
  rw [length_jumpPass] at htranslated
  rw [htranslated, jumpPass_jumpPass (fun p hp t => isI32_absoluteTarget hp)
    (fun p _ t _ => relativeTarget_absoluteTarget) (by omega)]

/-- A jump at the second byte, with another opcode among its operand. -/
def sampleJumps : List UInt8 := [0, 0xE8, 0xE8, 1, 0, 0, 0xE8, 0xFF, 0xFF, 0xFF, 0xFF, 0, 0, 0, 0, 0, 0, 0, 0, 0]

theorem sampleJumps_restored : jumpPass absoluteTarget 0 sampleJumps ≠ sampleJumps ∧
    translateJumps .panics (jumpPass absoluteTarget 0 sampleJumps ++ []) sampleJumps.length =
      (.value (sampleJumps ++ []) : Outcome Unit (List UInt8)) :=
  ⟨by decide +kernel, translateJumps_jumpPass .panics sampleJumps [] (by decide)⟩

end NextBoot.Lzx
