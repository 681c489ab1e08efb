import Mathlib.Data.List.Induction
import NextBoot.Virtio.BlockIo

namespace NextBoot.Virtio.Manager

open BlockIo

/-- The registered devices, over devices of any kind. -/
structure VirtualDeviceManager (δ : Type) where
  devices : List δ
  nextIndex : Nat

namespace VirtualDeviceManager

variable {δ ε : Type}

def new : VirtualDeviceManager δ := ⟨[], 0⟩

def register (m : VirtualDeviceManager δ) (device : δ) : VirtualDeviceManager δ × Nat :=
  (⟨m.devices ++ [device], m.nextIndex + 1⟩, m.nextIndex)

def get (m : VirtualDeviceManager δ) (index : Nat) : Option δ := m.devices[index]?

def count (m : VirtualDeviceManager δ) : Nat := m.devices.length

def remove (m : VirtualDeviceManager δ) (index : Nat) : VirtualDeviceManager δ × Option δ :=
  if index < m.devices.length then (⟨m.devices.eraseIdx index, m.nextIndex⟩, m.devices[index]?) else (m, none)

def map (f : δ → ε) (m : VirtualDeviceManager δ) : VirtualDeviceManager ε := ⟨m.devices.map f, m.nextIndex⟩

theorem register_map (f : δ → ε) (m : VirtualDeviceManager δ) (device : δ) :
    (m.map f).register (f device) = ((m.register device).1.map f, (m.register device).2) := by
  simp [register, map]

theorem remove_map (f : δ → ε) (m : VirtualDeviceManager δ) (index : Nat) :
    (m.map f).remove index = ((m.remove index).1.map f, (m.remove index).2.map f) := by
  simp only [remove, map, List.length_map]
  split
  · simp [List.eraseIdx_eq_take_drop_succ, List.map_take, List.map_drop]
  · rfl

end VirtualDeviceManager

inductive ManagerCall where
  | register (device : VirtualBlockIo)
  | remove (index : Nat)

namespace ManagerCall

def apply (m : VirtualDeviceManager VirtualBlockIo) : ManagerCall → VirtualDeviceManager VirtualBlockIo
  | register device => (m.register device).1
  | remove index => (m.remove index).1

end ManagerCall

/-- A run of the manager with what its callers know: the device and the index of each registration, and which of the
registrations have been removed. The manager's devices carry the number of their registration. -/
structure ManagerRun where
  manager : VirtualDeviceManager (Nat × VirtualBlockIo)
  registrations : List (VirtualBlockIo × Nat)
  removed : List Nat

namespace ManagerRun

def start : ManagerRun := ⟨.new, [], []⟩

def step (r : ManagerRun) : ManagerCall → ManagerRun
  | .register device =>
      let registered := r.manager.register (r.registrations.length, device)
      ⟨registered.1, r.registrations ++ [(device, registered.2)], r.removed⟩
  | .remove index =>
      let removal := r.manager.remove index
      ⟨removal.1, r.registrations, r.removed ++ removal.2.toList.map Prod.fst⟩

def run (calls : List ManagerCall) : ManagerRun := calls.foldl step start

/-- Every index names the device it was returned for until that is removed, and from then on none. -/
def Stable (r : ManagerRun) : Prop :=
  ∀ number device index, r.registrations[number]? = some (device, index) →
    r.manager.get index = if number ∈ r.removed then none else some (number, device)

/-- Nothing is registered behind a removed device, and only the last device is removed. -/
def Careful (r : ManagerRun) : ManagerCall → Prop
  | .register _ => r.manager.nextIndex = r.manager.count
  | .remove index => r.manager.count ≤ index + 1

/-- The invariant of careful runs: an index is the number of its registration, and those from `count` on are removed. -/
structure Aligned (r : ManagerRun) : Prop where
  nextIndex_eq : r.manager.nextIndex = r.registrations.length
  count_le : r.manager.count ≤ r.registrations.length
  removed_iff : ∀ number, number ∈ r.removed ↔ r.manager.count ≤ number ∧ number < r.registrations.length
  registered : ∀ number device index, r.registrations[number]? = some (device, index) →
    index = number ∧ (number < r.manager.count → r.manager.get number = some (number, device))

variable {r : ManagerRun} {call : ManagerCall} {calls : List ManagerCall}

/-- The numbers are invisible to the manager: without them the run is the manager's own. -/
theorem run_manager : (run calls).manager.map Prod.snd = calls.foldl ManagerCall.apply .new := by
  induction calls using List.reverseRecOn with
  | nil => rfl
  | append_singleton calls call ih =>
      rw [run, List.foldl_append, List.foldl_append, ← ih, ← run]
      cases call with
      | register device => exact (Prod.ext_iff.mp (VirtualDeviceManager.register_map Prod.snd _ (_, device))).1.symm
      | remove index => exact (Prod.ext_iff.mp (VirtualDeviceManager.remove_map Prod.snd _ index)).1.symm

theorem start_aligned : start.Aligned where
  nextIndex_eq := rfl
  count_le := Nat.le_refl 0
  removed_iff := fun number => by simp [start]
  registered := fun number device index h => by simp [start] at h

theorem Aligned.stable (h : r.Aligned) : r.Stable := by
  intro number device index hget
  obtain ⟨rfl, hpresent⟩ := h.registered number device index hget
  have hlt := (List.getElem?_eq_some_iff.mp hget).1
  split
  · next hremoved => exact List.getElem?_eq_none ((h.removed_iff _).mp hremoved).1
  · next hkept =>
      rw [h.removed_iff] at hkept
      exact hpresent (by omega)

theorem Aligned.register {device : VirtualBlockIo} (h : r.Aligned) (hcareful : r.Careful (.register device)) :
    (r.step (.register device)).Aligned := by
  have hnext := h.nextIndex_eq
  have hcount : r.manager.nextIndex = r.manager.devices.length := hcareful
  have hnone : ∀ number, number ∉ r.removed := by
    intro number hremoved
    have hbounds := (h.removed_iff number).mp hremoved
    rw [VirtualDeviceManager.count] at hbounds
    omega
  constructor
  · simp [step, VirtualDeviceManager.register, hnext]
  · simp only [step, VirtualDeviceManager.register, VirtualDeviceManager.count, List.length_append,
      List.length_singleton]
    omega
  · intro number
    simp only [step, VirtualDeviceManager.register, VirtualDeviceManager.count, List.length_append,
      List.length_singleton, hnone number, false_iff]
    omega
  · intro number device' index hget
    simp only [step, VirtualDeviceManager.register, VirtualDeviceManager.count, VirtualDeviceManager.get] at hget ⊢
    by_cases hold : number < r.registrations.length
    · rw [List.getElem?_append_left hold] at hget
      obtain ⟨hindex, hpresent⟩ := h.registered number device' index hget
      refine ⟨hindex, fun _ => ?_⟩
      rw [List.getElem?_append_left (by omega)]
      exact hpresent (by rw [VirtualDeviceManager.count]; omega)
    · rw [List.getElem?_append_right (by omega), List.getElem?_singleton] at hget
      split at hget
      · obtain ⟨rfl, rfl⟩ := Prod.mk.inj (Option.some.inj hget)
        refine ⟨by omega, fun _ => ?_⟩
        rw [List.getElem?_append_right (by omega), show number - r.manager.devices.length = 0 by omega,
          show r.registrations.length = number by omega]
        rfl
      · cases hget

theorem Aligned.remove {index : Nat} (h : r.Aligned) (hcareful : r.Careful (.remove index)) :
    (r.step (.remove index)).Aligned := by
  have hcount : r.manager.devices.length ≤ index + 1 := hcareful
  have hle : r.manager.devices.length ≤ r.registrations.length := h.count_le
  by_cases hin : index < r.manager.devices.length
  · obtain ⟨⟨device, index'⟩, hget⟩ : ∃ p, r.registrations[index]? = some p := ⟨_, List.getElem?_eq_getElem (by omega)⟩
    have hlast : r.manager.devices[index]? = some (index, device) := (h.registered index device index' hget).2 hin
    have hstep : r.step (.remove index) =
        ⟨⟨r.manager.devices.take index, r.manager.nextIndex⟩, r.registrations, r.removed ++ [index]⟩ := by
      rw [step, VirtualDeviceManager.remove, if_pos hin]
      simp only [hlast, Option.toList_some, List.map_cons, List.map_nil, ManagerRun.mk.injEq,
        VirtualDeviceManager.mk.injEq, and_true]
      rw [List.eraseIdx_eq_take_drop_succ, List.drop_eq_nil_of_le hcount, List.append_nil]
    rw [hstep]
    constructor
    · exact h.nextIndex_eq
    · simp only [VirtualDeviceManager.count, List.length_take]
      omega
    · intro number
      have hold := h.removed_iff number
      simp only [VirtualDeviceManager.count, List.length_take, List.mem_append, List.mem_singleton] at hold ⊢
      rw [hold]
      omega
    · intro number device' index'' hget'
      obtain ⟨hindex, hpresent⟩ := h.registered number device' index'' hget'
      refine ⟨hindex, fun hlt => ?_⟩
      simp only [VirtualDeviceManager.count, VirtualDeviceManager.get, List.length_take] at hlt hpresent ⊢
      rw [List.getElem?_take_of_lt (by omega)]
      exact hpresent (by omega)
  · have hstep : r.step (.remove index) = r := by
      rw [step, VirtualDeviceManager.remove, if_neg hin]
      simp
    rwa [hstep]

theorem Aligned.step (h : r.Aligned) (hcareful : r.Careful call) : (r.step call).Aligned := by
  cases call with
  | register device => exact h.register hcareful
  | remove index => exact h.remove hcareful

/-- A careless call breaks some index: its own when it registers, that of the next device when it removes. -/
theorem Aligned.not_stable (h : r.Aligned) (hcareless : ¬ r.Careful call) : ¬ (r.step call).Stable := by
  intro hstable
  have hnext := h.nextIndex_eq
  have hle : r.manager.devices.length ≤ r.registrations.length := h.count_le
  cases call with
  | register device =>
      have hne : r.manager.nextIndex ≠ r.manager.devices.length := hcareless
      have hnew := hstable r.registrations.length device r.manager.nextIndex (by
        simp [ManagerRun.step, VirtualDeviceManager.register])
      have hkept : r.registrations.length ∉ r.removed := fun hremoved =>
        absurd ((h.removed_iff _).mp hremoved).2 (Nat.lt_irrefl _)
      rw [if_neg (show _ ∉ (r.step (.register device)).removed from hkept)] at hnew
      have hlt := (List.getElem?_eq_some_iff.mp hnew).1
      simp only [ManagerRun.step, VirtualDeviceManager.register, List.length_append, List.length_singleton] at hlt
      omega
  | remove index =>
      have hinside : ¬ r.manager.devices.length ≤ index + 1 := hcareless
      obtain ⟨⟨device, index'⟩, hget⟩ : ∃ p, r.registrations[index + 1]? = some p :=
        ⟨_, List.getElem?_eq_getElem (by omega)⟩
      obtain ⟨⟨gone, index''⟩, hgone⟩ : ∃ p, r.registrations[index]? = some p := ⟨_, List.getElem?_eq_getElem (by omega)⟩
      obtain ⟨rfl, -⟩ := h.registered _ _ _ hget
      have hat : r.manager.devices[index]? = some (index, gone) :=
        (h.registered _ _ _ hgone).2 (show index < r.manager.devices.length by omega)
      have hstep : r.step (.remove index) =
          ⟨⟨r.manager.devices.eraseIdx index, r.manager.nextIndex⟩, r.registrations, r.removed ++ [index]⟩ := by
        rw [ManagerRun.step, VirtualDeviceManager.remove, if_pos (by omega), hat]
        rfl
      rw [hstep] at hstable
      have hmoved := hstable (index + 1) device (index + 1) hget
      have hkept : index + 1 ∉ r.removed ++ [index] := by
        rw [List.mem_append, List.mem_singleton, h.removed_iff, VirtualDeviceManager.count]
        omega
      rw [if_neg hkept, VirtualDeviceManager.get, List.getElem?_eraseIdx_of_ge (Nat.le_succ index)] at hmoved
      -- the device found there is the next but one
      have hlt := (List.getElem?_eq_some_iff.mp hmoved).1
      obtain ⟨⟨later, index'''⟩, hlater⟩ : ∃ p, r.registrations[index + 1 + 1]? = some p :=
        ⟨_, List.getElem?_eq_getElem (by omega)⟩
      have hthere : r.manager.devices[index + 1 + 1]? = some (index + 1 + 1, later) :=
        (h.registered _ _ _ hlater).2 hlt
      rw [hthere] at hmoved
      exact absurd (Prod.mk.inj (Option.some.inj hmoved)).1 (by omega)

theorem run_snoc : run (calls ++ [call]) = (run calls).step call := by
  rw [run, List.foldl_append, ← run]
  rfl

theorem run_aligned (h : ∀ before call, before ++ [call] <+: calls → (run before).Careful call) :
    (run calls).Aligned := by
  induction calls using List.reverseRecOn with
  | nil => exact start_aligned
  | append_singleton calls call ih =>
      rw [run_snoc]
      exact (ih fun before c hc => h before c (hc.trans (List.prefix_append _ _))).step (h calls call (List.prefix_refl _))

/-- The indices stay stable throughout a run exactly when every call of it is careful. -/
theorem run_stable_iff (calls : List ManagerCall) :
    (∀ before, before <+: calls → (run before).Stable) ↔
      ∀ before call, before ++ [call] <+: calls → (run before).Careful call := by
  constructor
  · intro hstable
    induction calls using List.reverseRecOn with
    | nil => exact fun before call h => absurd (List.prefix_nil.mp h) (by simp)
    | append_singleton calls last ih =>
        have hbefore := ih fun before h => hstable before (h.trans (List.prefix_append _ _))
        intro before call h
        rcases List.prefix_concat_iff.mp h with heq | hprefix
        · obtain ⟨rfl, rfl⟩ : before = calls ∧ call = last := by simpa using heq
          by_contra hcareless
          refine (run_aligned hbefore).not_stable hcareless ?_
          rw [← run_snoc]
          exact hstable _ (List.prefix_refl _)
        · exact hbefore before call hprefix
  · intro hcareful before hprefix
    exact (run_aligned fun b c hb => hcareful b c (hb.trans hprefix)).stable

def sampleDevice : VirtualBlockIo :=
  .fromFileExtents ⟨4, 4, 4, Words.four_lt_u64, Words.four_lt_u32, Words.four_lt_u32⟩ []

/-- Two devices, of which the first is removed: the index of the second names nothing any more. -/
theorem removed_first_shifts :
    ¬ (run [.register sampleDevice, .register sampleDevice, .remove 0]).Stable := by
  intro h
  have hsecond := h 1 sampleDevice 1 rfl
  rw [show (run [.register sampleDevice, .register sampleDevice, .remove 0]).manager.get 1 = none from rfl,
    if_neg (by decide)] at hsecond
  cases hsecond

end ManagerRun

end NextBoot.Virtio.Manager
