import NextBoot.Bytes
import NextBoot.Faults
import NextBoot.Words

/-!
Writers that fill a buffer from its front. A writer appends when what it puts behind the part already written depends on
that part only, and not on what the buffer held there before.
-/

namespace NextBoot.Appending

open Words Bytes Faults Outcome

variable {ε α β γ : Type}

/-- A buffer, and how much of its front has been written. -/
structure Buffer (α : Type) where
  bytes : List α
  used : Nat
deriving DecidableEq, Repr

namespace Buffer

def push (buffer : Buffer α) (a : α) : Outcome ε (Buffer α) :=
  if buffer.used < buffer.bytes.length then pure ⟨buffer.bytes.set buffer.used a, buffer.used + 1⟩ else fault

/-- Copies one by one from a distance behind the place that is written, so that a copy may overlap what it reads. -/
def copyMatch (distance : Nat) : Nat → Buffer α → Outcome ε (Buffer α)
  | 0, buffer => pure buffer
  | count + 1, buffer => do
      let source ← ofOption (checkedSub buffer.used distance)
      let a ← ofOption buffer.bytes[source]?
      let buffer ← buffer.push a
      copyMatch distance count buffer

end Buffer

def Appends (write : Buffer α → Outcome ε (β × Buffer α)) (front : List α) (size : Nat) (P : β → List α → Prop) : Prop :=
  ∃ result : Except ε (β × List α), (∀ r, result = .ok r → r.2.length ≤ size ∧ P r.1 r.2) ∧
    ∀ room : List α, room.length = size → write ⟨front ++ room, front.length⟩ =
      ofExcept result >>= fun r => value (r.1, ⟨front ++ r.2 ++ room.drop r.2.length, front.length + r.2.length⟩)

variable {write : Buffer α → Outcome ε (β × Buffer α)} {f : β → Buffer α → Outcome ε (γ × Buffer α)}
  {front : List α} {size : Nat} {P : β → List α → Prop} {Q : γ → List α → Prop} {b : β}

theorem appends_pure (h : P b []) : Appends (fun buffer => (pure (b, buffer) : Outcome ε (β × Buffer α))) front size P := by
  refine ⟨.ok (b, []), ?_, fun room _ => ?_⟩
  · rintro r hr
    cases hr
    exact ⟨Nat.zero_le _, h⟩
  · show value _ = value _
    simp

theorem appends_error (e : ε) : Appends (fun _ : Buffer α => error e) front size P :=
  ⟨.error e, nofun, fun _ _ => rfl⟩

theorem Appends.mono {P' : β → List α → Prop} (h : Appends write front size P)
    (hmono : ∀ b more, more.length ≤ size → P b more → P' b more) : Appends write front size P' := by
  obtain ⟨result, hresult, hwrite⟩ := h
  exact ⟨result, fun r hr => ⟨(hresult r hr).1, hmono _ _ (hresult r hr).1 (hresult r hr).2⟩, hwrite⟩

/-- A writer may look at how much is written, at what is, and at how large the buffer is. -/
theorem Appends.congr {write' : Buffer α → Outcome ε (β × Buffer α)} (h : Appends write' front size P)
    (hsame : ∀ room : List α, room.length = size →
      write ⟨front ++ room, front.length⟩ = write' ⟨front ++ room, front.length⟩) : Appends write front size P := by
  obtain ⟨result, hresult, hwrite⟩ := h
  exact ⟨result, hresult, fun room hroom => (hsame room hroom).trans (hwrite room hroom)⟩

theorem Appends.bind (h : Appends write front size P) (hf : ∀ b more, more.length ≤ size → P b more →
      Appends (f b) (front ++ more) (size - more.length) fun c after => Q c (more ++ after)) :
    Appends (fun buffer => write buffer >>= fun r => f r.1 r.2) front size Q := by
  obtain ⟨result, hresult, hwrite⟩ := h
  cases result with
  | error e =>
      refine ⟨.error e, nofun, fun room hroom => ?_⟩
      dsimp only
      rw [hwrite room hroom]
      rfl
  | ok r =>
      obtain ⟨b, more⟩ := r
      obtain ⟨hlength, hP⟩ := hresult _ rfl
      dsimp only at hlength hP
      obtain ⟨result', hresult', hwrite'⟩ := hf b more hlength hP
      refine ⟨result'.map fun r => (r.1, more ++ r.2), ?_, fun room hroom => ?_⟩
      · intro r hr
        cases result' with
        | error e => cases hr
        | ok r' =>
            cases hr
            obtain ⟨hafter, hQ⟩ := hresult' r' rfl
            refine ⟨?_, hQ⟩
            rw [List.length_append]
            omega
      · have hrest := hwrite' (room.drop more.length) (by rw [List.length_drop, hroom])
        rw [List.length_append] at hrest
        dsimp only
        rw [hwrite room hroom, ofExcept_ok, value_bind, value_bind, hrest]
        cases result' with
        | error e => rfl
        | ok r' =>
            show value _ = value _
            simp [List.drop_drop, Nat.add_assoc]

/-- A step that leaves the buffer alone. -/
theorem appends_of_ensures {x : Outcome ε β} {R : β → Prop} (h : x.Ensures R)
    (hf : ∀ b, R b → Appends (f b) front size Q) : Appends (fun buffer => x >>= fun b => f b buffer) front size Q := by
  cases x with
  | value b => exact hf b h
  | error e => exact appends_error e
  | fault => exact h.elim

theorem appends_ite {p : Prop} [Decidable p] {write' : Buffer α → Outcome ε (β × Buffer α)}
    (h : p → Appends write front size P) (h' : ¬ p → Appends write' front size P) :
    Appends (fun buffer => if p then write buffer else write' buffer) front size P := by
  by_cases hp : p
  · exact (h hp).congr fun room _ => if_pos hp
  · exact (h' hp).congr fun room _ => if_neg hp

theorem appends_push {a : α} (hsize : 0 < size) (h : P b [a]) :
    Appends (fun buffer => buffer.push a >>= fun buffer => (pure (b, buffer) : Outcome ε (β × Buffer α))) front size P := by
  refine ⟨.ok (b, [a]), ?_, fun room hroom => ?_⟩
  · rintro r hr
    cases hr
    exact ⟨hsize, h⟩
  · obtain ⟨first, rest, rfl⟩ := List.exists_cons_of_length_pos (hroom ▸ hsize)
    have hinside : front.length < (front ++ first :: rest).length := by
      rw [List.length_append, List.length_cons]
      omega
    simp only [Buffer.push]
    rw [if_pos hinside]
    show value _ = value _
    simp [List.set_append_right]

theorem appends_copyFromSlice {src : List α} (hsize : src.length ≤ size) (h : P b src) :
    Appends (fun buffer => ofOption (copyFromSlice buffer.bytes buffer.used src) >>= fun bytes =>
      (pure (b, ⟨bytes, buffer.used + src.length⟩) : Outcome ε (β × Buffer α))) front size P := by
  refine ⟨.ok (b, src), ?_, fun room hroom => ?_⟩
  · rintro r hr
    cases hr
    exact ⟨hsize, h⟩
  · have hsplit : front ++ room = front ++ (room.take src.length ++ room.drop src.length) := by
      rw [List.take_append_drop]
    dsimp only
    rw [hsplit, copyFromSlice_middle rfl (by rw [List.length_take]; omega), ← List.append_assoc]
    rfl

/-- A match that begins in the written part of the buffer reads written bytes only, also where it overlaps itself. -/
theorem appends_copyMatch {distance count : Nat} (hpos : 0 < distance) (hinside : distance ≤ front.length)
    (hsize : count ≤ size) (h : ∀ more : List α, more.length = count → P b more) :
    Appends (fun buffer => buffer.copyMatch distance count >>= fun buffer => (pure (b, buffer) : Outcome ε (β × Buffer α)))
      front size P := by
  induction count generalizing front size P with
  | zero => exact appends_pure (h [] rfl)
  | succ count ih =>
      have hlt : front.length - distance < front.length := by omega
      have hpush : Appends (fun buffer => buffer.push front[front.length - distance] >>= fun buffer =>
          (pure ((), buffer) : Outcome ε (Unit × Buffer α))) front size fun _ more => more.length = 1 :=
        appends_push (by omega) rfl
      have hrest := hpush.bind (Q := P) (f := fun _ buffer => buffer.copyMatch distance count >>= fun buffer =>
        (pure (b, buffer) : Outcome ε (β × Buffer α))) fun _ more hmore hone => ih (by rw [List.length_append]; omega)
          (by omega) fun after hafter => h _ (by rw [List.length_append]; omega)
      refine hrest.congr fun room _ => ?_
      have hread : (front ++ room)[front.length - distance]? = some front[front.length - distance] := by
        rw [List.getElem?_append_left hlt, List.getElem?_eq_getElem hlt]
      rw [Buffer.copyMatch, checkedSub_eq_some.mpr ⟨hinside, rfl⟩, ofOption_some, value_bind, hread, ofOption_some,
        value_bind, bind_assoc, bind_assoc]
      rfl

end NextBoot.Appending
