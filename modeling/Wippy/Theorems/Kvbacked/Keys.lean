import Wippy.Kvbacked.Cluster
import Wippy.Theorems.Pid

/-! Keys of the registry do not collide, reverse-index keys apart. -/

namespace Wippy.Kvbacked
open Lib List

variable {a b : Bytes}

/-- The part of a key that tells its kind. -/
def family (k : Bytes) : Bytes := (k.drop 14).take 3

@[simp] theorem family_activeKey (name : Bytes) : family (activeKey name) = [97, 99, 116] := rfl
@[simp] theorem family_pendingKey (name : Bytes) : family (pendingKey name) = [112, 101, 110] := rfl
@[simp] theorem family_ackKey (name attemptID node : Bytes) : family (ackKey name attemptID node) = [97, 99, 107] := rfl
@[simp] theorem family_resultKey (name attemptID : Bytes) : family (resultKey name attemptID) = [114, 101, 115] := rfl
@[simp] theorem family_pidIndexKey (p : PID) (name : Bytes) : family (pidIndexKey p name) = [112, 105, 100] := rfl
@[simp] theorem family_nodeIndexKey (p : PID) (name : Bytes) : family (nodeIndexKey p name) = [110, 105, 100] := rfl

theorem key_ne {k k' : Bytes} (h : (family k == family k') = false) : k ≠ k' := fun heq => by simp [heq] at h

@[simp] theorem activeKey_inj : activeKey a = activeKey b ↔ a = b := by
  unfold activeKey
  rw [append_cancel_left_eq]

@[simp] theorem pendingKey_inj : pendingKey a = pendingKey b ↔ a = b := by
  unfold pendingKey
  rw [append_cancel_left_eq]

/-! ### Escaped components -/

theorem colon_notMem_voteComponent (s : Bytes) : 58 ∉ voteComponent s := by
  unfold voteComponent
  rw [mem_flatMap]
  rintro ⟨b, -, hb⟩
  split at hb
  · simp at hb
  · split at hb <;> simp_all

theorem voteComponent_inj (h : voteComponent a = voteComponent b) : a = b := by
  induction a generalizing b with
  | nil =>
    cases b with
    | nil => rfl
    | cons y b =>
      simp only [voteComponent, flatMap_nil, flatMap_cons] at h
      split at h
      · simp at h
      · split at h <;> simp at h
  | cons x a ih =>
    cases b with
    | nil =>
      simp only [voteComponent, flatMap_nil, flatMap_cons] at h
      split at h
      · simp at h
      · split at h <;> simp at h
    | cons y b =>
      -- the first escaped byte tells which byte it was
      simp only [voteComponent, flatMap_cons] at h ih
      have hxy : x = y ∧ voteComponent a = voteComponent b := by
        unfold voteComponent
        split at h <;> split at h <;> (try split at h) <;> (try split at h) <;> simp_all
      rw [hxy.1, ih hxy.2]

theorem ackKey_inj {name attempt node name' attempt' node' : Bytes}
    (h : ackKey name attempt node = ackKey name' attempt' node') :
    name = name' ∧ attempt = attempt' ∧ node = node' := by
  unfold ackKey ackBase at h
  simp only [append_assoc, append_cancel_left_eq, cons_append, nil_append] at h
  obtain ⟨hname, hrest⟩ := cut_inj (colon_notMem_voteComponent _) (colon_notMem_voteComponent _) h
  have hrev := congrArg List.reverse hrest
  simp only [reverse_append, reverse_cons, append_assoc, cons_append, nil_append] at hrev
  obtain ⟨hnode, hattempt⟩ := cut_inj (fun hm => colon_notMem_voteComponent _ (mem_reverse.mp hm))
    (fun hm => colon_notMem_voteComponent _ (mem_reverse.mp hm)) hrev
  exact ⟨voteComponent_inj hname, reverse_injective hattempt,
    voteComponent_inj (reverse_injective hnode)⟩

end Wippy.Kvbacked
