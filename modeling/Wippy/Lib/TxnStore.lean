import Wippy.Lib.Map

/-! A store of versioned values with conditional transactions. Every write takes the next version, so a reader that
    finds a version again finds the same entry (`Versions`). -/

namespace Lib
open List

structure Stored (α : Type) where
  value : α
  version : Nat
  epoch : Nat
  deriving DecidableEq, Repr

inductive Cond
  | any
  | absent
  | present
  | version (expect : Nat)
  deriving DecidableEq, Repr

namespace Cond

def holds {α : Type} : Cond → Option (Stored α) → Bool
  | any, _ => true
  | absent, e => e.isNone
  | present, e => e.isSome
  | version expect, e => e.any fun e => e.version == expect

variable {α : Type} {e : Option (Stored α)}

theorem holds_absent : absent.holds e = true ↔ e = none := Option.isNone_iff_eq_none

theorem holds_present : present.holds e = true ↔ ∃ x, e = some x := Option.isSome_iff_exists

theorem holds_version {expect : Nat} : (version expect).holds e = true ↔ ∃ x, e = some x ∧ x.version = expect := by
  cases e <;> simp [holds]

end Cond

/-- One operation of a transaction: each has a condition on its key, and a check has no effect. -/
inductive TxnOp (κ α : Type)
  | check (cond : Cond) (key : κ)
  | put (cond : Cond) (key : κ) (value : α)
  | delete (cond : Cond) (key : κ)
  deriving DecidableEq, Repr

namespace TxnOp
variable {κ α : Type}

def cond : TxnOp κ α → Cond
  | check c _ | put c _ _ | delete c _ => c

def key : TxnOp κ α → κ
  | check _ k | put _ k _ | delete _ k => k

/-- What the operation leaves at its key, if it writes: nothing, or a value. -/
def effect : TxnOp κ α → Option (Option α)
  | check _ _ => none
  | put _ _ v => some (some v)
  | delete _ _ => some none

/-- The writes of a list of operations that leave a value, in order. -/
def puts (ops : List (TxnOp κ α)) : List (κ × α) :=
  ops.filterMap fun
    | put _ k v => some (k, v)
    | _ => none

@[simp] theorem puts_nil : puts ([] : List (TxnOp κ α)) = [] := rfl

section
variable (c : Cond) (k)

@[simp] theorem puts_check (ops : List (TxnOp κ α)) : puts (check c k :: ops) = puts ops := rfl

@[simp] theorem puts_put (v : α) (ops : List (TxnOp κ α)) :
    puts (put c k v :: ops) = (k, v) :: puts ops := rfl

@[simp] theorem puts_delete (ops : List (TxnOp κ α)) : puts (delete c k :: ops) = puts ops := rfl

end

@[simp] theorem puts_append (ops ops' : List (TxnOp κ α)) : puts (ops ++ ops') = puts ops ++ puts ops' :=
  filterMap_append

theorem puts_flatMap_eq_nil {ι : Type} {f : ι → List (TxnOp κ α)} (h : ∀ i, puts (f i) = []) (l : List ι) :
    puts (l.flatMap f) = [] := by
  induction l with
  | nil => rfl
  | cons i l ih => rw [flatMap_cons, puts_append, h i, ih, append_nil]

variable [DecidableEq κ]

/-- What the last write to `k` leaves there, if there is a write to `k`. -/
def lastWrite (k : κ) : List (TxnOp κ α) → Option (Option α)
  | [] => none
  | op :: ops => (lastWrite k ops).or (if op.key = k then op.effect else none)

@[simp] theorem lastWrite_nil (k : κ) : lastWrite k ([] : List (TxnOp κ α)) = none := rfl

section
variable (k k' : κ) (c : Cond)

@[simp] theorem lastWrite_check (ops : List (TxnOp κ α)) : lastWrite k (check c k' :: ops) = lastWrite k ops := by
  simp [lastWrite, effect]

@[simp] theorem lastWrite_put (v : α) (ops : List (TxnOp κ α)) :
    lastWrite k (put c k' v :: ops) = (lastWrite k ops).or (if k' = k then some (some v) else none) := rfl

@[simp] theorem lastWrite_delete (ops : List (TxnOp κ α)) :
    lastWrite k (delete c k' :: ops) = (lastWrite k ops).or (if k' = k then some none else none) := rfl

end

@[simp] theorem lastWrite_append (k : κ) (ops ops' : List (TxnOp κ α)) :
    lastWrite k (ops ++ ops') = (lastWrite k ops').or (lastWrite k ops) := by
  induction ops with
  | nil => simp
  | cons op ops ih => rw [cons_append, lastWrite, ih, lastWrite, Option.or_assoc]

theorem mem_puts_of_lastWrite {k : κ} {v : α} {ops : List (TxnOp κ α)} (h : lastWrite k ops = some (some v)) :
    (k, v) ∈ puts ops := by
  induction ops with
  | nil => cases h
  | cons op ops ih =>
    cases op with
    | check c k' => exact ih (by simpa using h)
    | delete c k' =>
      rw [lastWrite_delete, Option.or_eq_some_iff] at h
      rcases h with h | ⟨-, h⟩
      · exact ih h
      · split at h <;> cases h
    | put c k' w =>
      rw [puts_put, mem_cons]
      rw [lastWrite_put, Option.or_eq_some_iff] at h
      rcases h with h | ⟨-, h⟩
      · exact Or.inr (ih h)
      split at h
      next hk =>
        cases h
        exact Or.inl (by rw [hk])
      · cases h

section Deletions
variable {ι : Type} {f : ι → List (TxnOp κ α)} {key : ι → κ} {l : List ι} {k : κ}

section
variable (hf : ∀ i k, key i ≠ k → lastWrite k (f i) = none)
include hf

theorem lastWrite_flatMap_of_notMem (hk : ∀ i ∈ l, key i ≠ k) : lastWrite k (l.flatMap f) = none := by
  induction l with
  | nil => rfl
  | cons i l ih =>
    rw [flatMap_cons, lastWrite_append, ih fun j hj => hk j (mem_cons_of_mem _ hj),
      hf i k (hk i mem_cons_self), Option.or_none]

theorem lastWrite_flatMap_of_mem (hdel : ∀ i, lastWrite (key i) (f i) = some none) (hk : ∃ i ∈ l, key i = k) :
    lastWrite k (l.flatMap f) = some none := by
  induction l with
  | nil =>
    obtain ⟨i, hi, -⟩ := hk
    cases hi
  | cons j l ih =>
    rw [flatMap_cons, lastWrite_append]
    by_cases hlater : ∃ i ∈ l, key i = k
    · rw [ih hlater, Option.some_or]
    obtain ⟨i, hi, rfl⟩ := hk
    rcases mem_cons.mp hi with rfl | hi
    · rw [lastWrite_flatMap_of_notMem hf fun x hx heq => hlater ⟨x, hx, heq⟩, hdel, Option.none_or]
    · exact absurd ⟨i, hi, rfl⟩ hlater

end
end Deletions
end TxnOp

structure TxnStore (κ α : Type) where
  entries : Map κ (Stored α) := ∅
  version : Nat := 0
  index : Nat := 0

namespace TxnStore
variable {κ α : Type} [DecidableEq κ] {e : Stored α} {past : List (TxnStore κ α)}

def get (s : TxnStore κ α) (k : κ) : Option (Stored α) := s.entries.lookup k

def holds (s : TxnStore κ α) (op : TxnOp κ α) : Bool := op.cond.holds (s.get op.key)

def applyOp (s : TxnStore κ α) : TxnOp κ α → TxnStore κ α
  | .check _ _ => s
  | .put _ k v =>
    { s with
      version := s.version + 1
      entries := s.entries.insert k { value := v, version := s.version + 1, epoch := s.index } }
  | .delete _ k => { s with entries := s.entries.erase k }

def advance (s : TxnStore κ α) : TxnStore κ α := { s with index := s.index + 1 }

def txn (s : TxnStore κ α) (ops : List (TxnOp κ α)) : TxnStore κ α × Bool :=
  if ops.all s.holds then (ops.foldl applyOp s.advance, true) else (s.advance, false)

def run (s : TxnStore κ α) : List (List (TxnOp κ α)) → TxnStore κ α × List Bool
  | [] => (s, [])
  | ops :: txns =>
    let (s, ok) := s.txn ops
    let (s, oks) := run s txns
    (s, ok :: oks)

/-! ### What a transaction leaves -/

variable {s : TxnStore κ α} {ops : List (TxnOp κ α)} {k : κ}

section
variable (s)

theorem version_applyOp (op : TxnOp κ α) : s.version ≤ (s.applyOp op).version := by
  cases op <;> simp [applyOp]

theorem version_foldl (ops : List (TxnOp κ α)) : s.version ≤ (ops.foldl applyOp s).version := by
  induction ops generalizing s with
  | nil => exact le_rfl
  | cons op ops ih => exact Nat.le_trans (version_applyOp s op) (ih _)

@[simp] theorem index_applyOp (op : TxnOp κ α) : (s.applyOp op).index = s.index := by
  cases op <;> rfl

theorem get_applyOp_ne (op : TxnOp κ α) (h : op.key ≠ k) : (s.applyOp op).get k = s.get k := by
  cases op with
  | check c k' => rfl
  | put c k' v => exact AList.lookup_insert_ne (Ne.symm h)
  | delete c k' => exact AList.lookup_erase_ne (Ne.symm h)

end

/-- The entry at `k` after the writes `ops`, in terms of the last one that concerns `k`. -/
structure Left (s s' : TxnStore κ α) (k : κ) (w : Option (Option α)) : Prop where
  kept : w = none → s'.get k = s.get k
  gone : w = some none → s'.get k = none
  wrote : ∀ v, w = some (some v) → ∃ n, s.version < n ∧ n ≤ s'.version ∧
    s'.get k = some { value := v, version := n, epoch := s.index }

theorem left_applyOp (s : TxnStore κ α) (op : TxnOp κ α) (k : κ) :
    Left s (s.applyOp op) k (if op.key = k then op.effect else none) := by
  by_cases h : op.key = k
  · subst h
    rw [if_pos rfl]
    cases op with
    | check c k => exact ⟨fun _ => rfl, nofun, nofun⟩
    | put c k v =>
      refine ⟨nofun, nofun, fun w hw => ⟨s.version + 1, Nat.lt_succ_self _, le_rfl, ?_⟩⟩
      cases hw
      exact AList.lookup_insert _
    | delete c k => exact ⟨nofun, fun _ => AList.lookup_erase _ _, nofun⟩
  · rw [if_neg h]
    exact ⟨fun _ => get_applyOp_ne s op h, nofun, nofun⟩

theorem left_foldl (s : TxnStore κ α) (ops : List (TxnOp κ α)) (k : κ) :
    Left s (ops.foldl applyOp s) k (TxnOp.lastWrite k ops) := by
  induction ops generalizing s with
  | nil => exact ⟨fun _ => rfl, nofun, nofun⟩
  | cons op ops ih =>
    have first := left_applyOp s op k
    have rest := ih (s.applyOp op)
    rw [foldl_cons, TxnOp.lastWrite]
    cases hw : TxnOp.lastWrite k ops with
    | none =>
      have hk := rest.kept hw
      refine ⟨fun h => hk.trans (first.kept h), fun h => hk.trans (first.gone h), fun v h => ?_⟩
      obtain ⟨n, hlt, hle, hn⟩ := first.wrote v h
      exact ⟨n, hlt, Nat.le_trans hle (version_foldl _ _), hk.trans hn⟩
    | some w =>
      refine ⟨nofun, fun h => rest.gone (hw.trans h), fun v h => ?_⟩
      obtain ⟨n, hlt, hle, hn⟩ := rest.wrote v (hw.trans h)
      exact ⟨n, lt_of_le_of_lt (version_applyOp s op) hlt, hle, by rw [hn, index_applyOp]⟩

def Commits (s : TxnStore κ α) (ops : List (TxnOp κ α)) : Prop := ∀ op ∈ ops, s.holds op = true

theorem txn_committed : (s.txn ops).2 = true ↔ s.Commits ops := by
  unfold txn Commits
  split <;> simp_all

theorem get_txn_of_not (h : (s.txn ops).2 = false) (k : κ) : (s.txn ops).1.get k = s.get k := by
  unfold txn at h ⊢
  split
  · simp_all
  · rfl

theorem version_txn (s : TxnStore κ α) (ops : List (TxnOp κ α)) : s.version ≤ (s.txn ops).1.version := by
  unfold txn
  split
  · exact version_foldl s.advance ops
  · exact le_rfl

section
variable (h : (s.txn ops).2 = true)
include h

theorem left_txn (k : κ) : Left s.advance (s.txn ops).1 k (TxnOp.lastWrite k ops) := by
  unfold txn at h ⊢
  split
  · exact left_foldl _ ops k
  · simp_all

theorem get_txn_kept (hk : TxnOp.lastWrite k ops = none) : (s.txn ops).1.get k = s.get k :=
  (left_txn h k).kept hk

theorem get_txn_gone (hk : TxnOp.lastWrite k ops = some none) : (s.txn ops).1.get k = none :=
  (left_txn h k).gone hk

theorem get_txn_wrote {v : α} (hk : TxnOp.lastWrite k ops = some (some v)) :
    ∃ e, (s.txn ops).1.get k = some e ∧ e.value = v := by
  obtain ⟨n, -, -, hn⟩ := (left_txn h k).wrote v hk
  exact ⟨_, hn, rfl⟩

end

/-- What a transaction can leave at a key: the entry that was there, or a value that it puts under a new version. -/
theorem get_txn_cases (h : (s.txn ops).1.get k = some e) :
    s.get k = some e ∨ ((k, e.value) ∈ TxnOp.puts ops ∧ s.version < e.version ∧
      e.version ≤ (s.txn ops).1.version) := by
  cases hc : (s.txn ops).2 with
  | false => exact Or.inl (get_txn_of_not hc k ▸ h)
  | true =>
    have left := left_txn hc k
    cases hw : TxnOp.lastWrite k ops with
    | none => exact Or.inl ((left.kept hw).symm.trans h)
    | some w =>
      cases w with
      | none => rw [left.gone hw] at h; cases h
      | some v =>
        obtain ⟨n, hlt, hle, hn⟩ := left.wrote v hw
        rw [hn] at h
        cases h
        exact Or.inr ⟨TxnOp.mem_puts_of_lastWrite hw, hlt, hle⟩

/-! ### Versions name writes -/

/-- The tables `past` were published before `s` or are `s`. -/
structure Versions (past : List (TxnStore κ α)) (s : TxnStore κ α) : Prop where
  bound : ∀ a ∈ past, ∀ k e, a.get k = some e → e.version ≤ s.version
  same : ∀ a ∈ past, ∀ k e e', a.get k = some e → s.get k = some e' → e.version = e'.version → e = e'
  last : ∀ k e, s.get k = some e → e.version ≤ s.version

theorem versions_empty : Versions [({} : TxnStore κ α)] {} where
  bound a ha k e he := by
    rw [mem_singleton.mp ha] at he
    cases he
  same a ha k e e' he := by
    rw [mem_singleton.mp ha] at he
    cases he
  last k e he := by cases he

theorem Versions.last_txn (h : Versions past s) (ops : List (TxnOp κ α)) (he : (s.txn ops).1.get k = some e) :
    e.version ≤ (s.txn ops).1.version := by
  rcases get_txn_cases he with hs | ⟨-, -, hle⟩
  · exact Nat.le_trans (h.last k e hs) (version_txn s ops)
  · exact hle

theorem Versions.txn (h : Versions past s) (ops : List (TxnOp κ α)) :
    Versions (past ++ [(s.txn ops).1]) (s.txn ops).1 where
  bound a ha k e he := by
    rcases mem_append.mp ha with ha | ha
    · exact Nat.le_trans (h.bound a ha k e he) (version_txn s ops)
    · exact h.last_txn ops (mem_singleton.mp ha ▸ he)
  same a ha k e e' he he' hv := by
    rcases mem_append.mp ha with ha | ha
    · rcases get_txn_cases he' with hs | ⟨-, hlt, -⟩
      · exact h.same a ha k e e' he hs hv
      · -- a new version lies above every version that was read before
        have := h.bound a ha k e he
        omega
    · rw [mem_singleton.mp ha, he'] at he
      exact (Option.some.inj he).symm
  last _ _ := h.last_txn ops

/-- An entry seen in a published table is the one in the store if the store still has its version. -/
theorem Versions.current (h : Versions past s) {a : TxnStore κ α} (ha : a ∈ past) (he : a.get k = some e)
    (hv : (Cond.version e.version).holds (s.get k) = true) : s.get k = some e := by
  obtain ⟨e', he', heq⟩ := Cond.holds_version.mp hv
  rw [he', h.same a ha k e e' he he' heq.symm]

end TxnStore
end Lib
