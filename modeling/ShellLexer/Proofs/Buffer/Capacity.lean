import ShellLexer.Buffer
import Mathlib.Algebra.GroupWithZero.Nat

/-!
# The room of a buffer

A buffer is used by appends of any size, in any order with operations that empty
it or only read it.  An append that finds too little room makes room for half as
much again as it needs, so the room grows by half each time, and what is moved
on the way is paid for by the room that is gained:

* `Step.moved_add_le`: a step that moves bytes gains half as much room as it
  moves, and no step loses any.
* `moved_add_le`: so whatever a whole run moves is at most twice the room gained.
* `run_accounted`: the room always fits, stays within half as much again as was
  ever held, and over a run at most three times that is moved.

The amounts are worked out in words of 64 bits; they do not overflow below `2 ^ 63`
bytes (`toNat_targetWord`, `toNat_reservedWord`).
-/

namespace ShellLexer.Buffer

/-! ## Runs -/

/-- What can be done with a buffer. -/
inductive Operation
  | append (data : ByteArray)
  | appendString (s : String)
  | appendChar (c : Char)
  | clear
  | snapshot
  | take

/-- The bytes that an operation appends, if it is an append. -/
def Operation.data? : Operation → Option ByteArray
  | append data => some data
  | appendString s => some s.toUTF8
  | appendChar c => some (String.singleton c).toUTF8
  | clear | snapshot | take => none

/-- The buffer after an operation. -/
def apply (b : Buffer) : Operation → Buffer
  | .append data => b.append data
  | .appendString s => b.appendString s
  | .appendChar c => b.appendChar c
  | .clear => b.clear
  | .snapshot => b
  | .take => b.take.2

/-- An operation and the buffer it is done with. -/
structure Step where
  before : Buffer
  operation : Operation

def Step.after (s : Step) : Buffer := s.before.apply s.operation

/-- The steps of a run. -/
def steps (b : Buffer) : List Operation → List Step
  | [] => []
  | op :: ops => ⟨b, op⟩ :: steps (b.apply op) ops

/-- The greatest length that a run reaches. -/
def peak (run : List Step) : Nat := (run.map fun s => s.after.length).foldr max 0

/-- The bytes that a step moves: those held, if the step makes room. -/
def Step.moved (s : Step) : Nat :=
  if s.before.capacity < s.after.capacity then s.before.length else 0

/-- The bytes that a run moves. -/
def moved (run : List Step) : Nat := (run.map Step.moved).sum

theorem length_after_le_peak {run : List Step} {s : Step} (hs : s ∈ run) :
    s.after.length ≤ peak run := by
  induction run with
  | nil => contradiction
  | cons first run ih =>
    show _ ≤ max first.after.length (peak run)
    rcases List.mem_cons.mp hs with rfl | hs
    · exact Nat.le_max_left _ _
    · exact Nat.le_trans (ih hs) (Nat.le_max_right _ _)

/-- What holds at the start and is kept by the steps of a run holds in front of each of them. -/
theorem forall_steps {b : Buffer} {ops : List Operation} {I : Buffer → Prop} {P : Step → Prop}
    (hStart : I b) (hStep : ∀ s ∈ steps b ops, I s.before → P s ∧ I s.after) :
    ∀ s ∈ steps b ops, P s := by
  induction ops generalizing b with
  | nil => exact fun s hs => absurd hs List.not_mem_nil
  | cons op ops ih =>
    obtain ⟨hFirst, hRest⟩ := List.forall_mem_cons.mp hStep
    obtain ⟨hProperty, hAfter⟩ := hFirst hStart
    exact List.forall_mem_cons.mpr ⟨hProperty, ih hAfter hRest⟩

/-! ## Steps -/

/-- An operation either appends its bytes, or leaves the room alone and adds none. -/
theorem apply_cases (b : Buffer) (op : Operation) :
    (∃ data, op.data? = some data ∧ b.apply op = b.append data) ∨
      (op.data? = none ∧ (b.apply op).capacity = b.capacity ∧
        (b.apply op).length ≤ b.length) := by
  cases op with
  | append data => exact .inl ⟨data, rfl, rfl⟩
  | appendString s => exact .inl ⟨s.toUTF8, rfl, rfl⟩
  | appendChar c => exact .inl ⟨(String.singleton c).toUTF8, rfl, rfl⟩
  | clear | take => exact .inr ⟨rfl, rfl, Nat.zero_le _⟩
  | snapshot => exact .inr ⟨rfl, rfl, Nat.le_refl _⟩

theorem grow_cases (capacity needed : Nat) :
    (needed ≤ capacity ∧ grow capacity needed = capacity) ∨
      (capacity < needed ∧ grow capacity needed = needed + needed / 2) := by
  unfold grow
  split
  · exact .inl ⟨‹_›, rfl⟩
  · exact .inr ⟨by omega, rfl⟩

namespace Step

variable (s : Step)

/-- A step either leaves the room as it is, or is an append that made room. -/
theorem capacity_cases :
    s.after.capacity = s.before.capacity ∨
      ∃ data, s.operation.data? = some data ∧ s.after.length = s.before.length + data.size ∧
        s.before.capacity < s.before.length + data.size ∧
        s.after.capacity =
          s.before.length + data.size + (s.before.length + data.size) / 2 := by
  rcases apply_cases s.before s.operation with ⟨data, hData, hAfter⟩ | ⟨-, hCapacity, -⟩
  · rw [after, hAfter, capacity_append, length_append]
    rcases grow_cases s.before.capacity (s.before.length + data.size) with
      ⟨-, hGrow⟩ | ⟨hShort, hGrow⟩
    · exact .inl hGrow
    · exact .inr ⟨data, hData, rfl, hShort, hGrow⟩
  · exact .inl hCapacity

theorem length_le_capacity (h : s.before.length ≤ s.before.capacity) :
    s.after.length ≤ s.after.capacity := by
  rcases apply_cases s.before s.operation with ⟨data, -, hAfter⟩ | ⟨-, hCapacity, hLength⟩
  · rw [after, hAfter, capacity_append, length_append]
    exact le_grow _ _
  · rw [after, hCapacity]
    exact Nat.le_trans hLength h

theorem capacity_le : s.before.capacity ≤ s.after.capacity := by
  rcases s.capacity_cases with hSame | ⟨data, -, -, hShort, hRoom⟩
  · exact Nat.le_of_eq hSame.symm
  · omega

theorem capacity_le_max {peak : Nat} (h : s.after.length ≤ peak) :
    s.after.capacity ≤ max s.before.capacity (peak + peak / 2) := by
  rcases s.capacity_cases with hSame | ⟨data, -, hLength, -, hRoom⟩
  · rw [hSame]
    exact Nat.le_max_left _ _
  · refine Nat.le_trans ?_ (Nat.le_max_right _ _)
    rw [hRoom, ← hLength]
    omega

/-- **What a step moves is paid for** by the room that it gains. -/
theorem moved_add_le (h : s.before.length ≤ s.before.capacity) :
    s.moved + 2 * s.before.capacity ≤ 2 * s.after.capacity := by
  unfold moved
  rcases s.capacity_cases with hSame | ⟨data, -, -, hShort, hRoom⟩
  · rw [hSame, if_neg (Nat.lt_irrefl _)]
    omega
  · split <;> omega

end Step

/-! ## Words -/

/-- The room to have for so many bytes, in words of 64 bits. -/
def targetWord (needed : UInt64) : UInt64 := needed + needed / 2

/-- What is reserved behind the bytes that are held, in words of 64 bits. -/
def reservedWord (length needed : UInt64) : UInt64 := targetWord needed - length

theorem toNat_targetWord {needed : Nat} (h : needed ≤ 2 ^ 63 - 1) :
    (targetWord (UInt64.ofNat needed)).toNat = needed + needed / 2 := by
  have hNeeded : (UInt64.ofNat needed).toNat = needed :=
    UInt64.toNat_ofNat_of_lt' (Nat.lt_of_le_of_lt h (by decide))
  rw [targetWord, UInt64.toNat_add, UInt64.toNat_div, hNeeded]
  show (needed + needed / 2) % 2 ^ 64 = _
  exact Nat.mod_eq_of_lt (by omega)

theorem toNat_reservedWord {length needed : Nat} (h : needed ≤ 2 ^ 63 - 1)
    (hLength : length ≤ needed) :
    length + (reservedWord (UInt64.ofNat length) (UInt64.ofNat needed)).toNat =
      needed + needed / 2 := by
  have hHeld : (UInt64.ofNat length).toNat = length :=
    UInt64.toNat_ofNat_of_lt' (Nat.lt_of_le_of_lt (Nat.le_trans hLength h) (by decide))
  have hTarget := toNat_targetWord h
  have hLe : UInt64.ofNat length ≤ targetWord (UInt64.ofNat needed) := by
    rw [UInt64.le_iff_toNat_le, hHeld, hTarget]
    omega
  rw [reservedWord, UInt64.toNat_sub_of_le _ _ hLe, hHeld, hTarget]
  omega

/-! ## Whole runs -/

/-- A step that makes room for an append of so many bytes. -/
structure Step.Grows (s : Step) (needed : Nat) : Prop where
  short : s.before.capacity < needed
  room : s.after.capacity = needed + needed / 2
  by_half : 3 * s.before.capacity + 2 ≤ 2 * s.after.capacity
  target_exact : (targetWord (UInt64.ofNat needed)).toNat = s.after.capacity
  reserved_exact : s.before.length +
    (reservedWord (UInt64.ofNat s.before.length) (UInt64.ofNat needed)).toNat = s.after.capacity

/-- What is true of each step of a run. -/
structure Step.Accounted (s : Step) (initial peak : Nat) : Prop where
  fits : s.after.length ≤ s.after.capacity
  kept : s.before.capacity ≤ s.after.capacity
  bounded : s.after.capacity ≤ max initial (peak + peak / 2)
  grows : s.after.capacity ≠ s.before.capacity →
    ∃ data, s.operation.data? = some data ∧ s.Grows (s.before.length + data.size)

theorem Step.grows_of_ne {s : Step} (hPeak : s.after.length ≤ 2 ^ 63 - 1)
    (h : s.after.capacity ≠ s.before.capacity) :
    ∃ data, s.operation.data? = some data ∧ s.Grows (s.before.length + data.size) := by
  rcases s.capacity_cases with hSame | ⟨data, hData, hLength, hShort, hRoom⟩
  · exact absurd hSame h
  · rw [hLength] at hPeak
    exact ⟨data, hData, hShort, hRoom, by omega, (toNat_targetWord hPeak).trans hRoom.symm,
      (toNat_reservedWord hPeak (Nat.le_add_right _ _)).trans hRoom.symm⟩

/-- **What a run moves is paid for** by the room that is gained in it. -/
theorem moved_add_le {b : Buffer} {ops : List Operation} {room : Nat}
    (h : b.length ≤ b.capacity) (hStart : b.capacity ≤ room)
    (hRoom : ∀ s ∈ steps b ops, s.after.capacity ≤ room) :
    moved (steps b ops) + 2 * b.capacity ≤ 2 * room := by
  induction ops generalizing b with
  | nil =>
    show 0 + _ ≤ _
    omega
  | cons op ops ih =>
    obtain ⟨hFirst, hRest⟩ := List.forall_mem_cons.mp hRoom
    have hStep := Step.moved_add_le ⟨b, op⟩ h
    have hMore : moved (steps (b.apply op) ops) + 2 * (b.apply op).capacity ≤ 2 * room :=
      ih (Step.length_le_capacity ⟨b, op⟩ h) hFirst hRest
    show Step.moved ⟨b, op⟩ + moved (steps (b.apply op) ops) + _ ≤ _
    simp only [Step.after] at hStep
    omega

/-- **The room of a buffer over a whole run**, from any room to start with and through any
operations that hold less than `2 ^ 63` bytes at a time. -/
theorem run_accounted (initial : Nat) (ops : List Operation)
    (hPeak : peak (steps (withCapacity initial) ops) ≤ 2 ^ 63 - 1) :
    (∀ s ∈ steps (withCapacity initial) ops,
      s.Accounted initial (peak (steps (withCapacity initial) ops))) ∧
    moved (steps (withCapacity initial) ops) ≤
      3 * peak (steps (withCapacity initial) ops) := by
  generalize hM : peak (steps (withCapacity initial) ops) = m at hPeak ⊢
  have hLength : ∀ s ∈ steps (withCapacity initial) ops, s.after.length ≤ m :=
    fun s hs => hM ▸ length_after_le_peak hs
  have hEach : ∀ s ∈ steps (withCapacity initial) ops, s.Accounted initial m := by
    refine forall_steps
      (I := fun b => b.length ≤ b.capacity ∧ b.capacity ≤ max initial (m + m / 2)) ?_ ?_
    · exact ⟨Nat.zero_le _, Nat.le_max_left _ _⟩
    · rintro s hs ⟨hFits, hBounded⟩
      have hAfter := s.length_le_capacity hFits
      have hRoom : s.after.capacity ≤ max initial (m + m / 2) :=
        Nat.le_trans (s.capacity_le_max (hLength s hs))
          (Nat.max_le.mpr ⟨hBounded, Nat.le_max_right _ _⟩)
      exact ⟨⟨hAfter, s.capacity_le, hRoom,
        Step.grows_of_ne (Nat.le_trans (hLength s hs) hPeak)⟩, hAfter, hRoom⟩
  refine ⟨hEach, ?_⟩
  have hMoved : moved (steps (withCapacity initial) ops) + 2 * initial ≤
      2 * max initial (m + m / 2) :=
    moved_add_le (Nat.zero_le _) (Nat.le_max_left _ _) fun s hs => (hEach s hs).bounded
  omega

/-- From room for one byte: two appends make room, and the second of them moves four bytes. -/
theorem run_accounted_sample :
    let run := steps (withCapacity 1)
      [.append ⟨#[0x61, 0x62, 0x63]⟩, .appendChar 'd', .appendChar 'é', .snapshot, .take,
        .appendString "ab"]
    (peak run = 6 ∧ run.map (fun s => s.after.capacity) = [4, 4, 9, 9, 9, 9] ∧ moved run = 4) ∧
      (∀ s ∈ run, s.Accounted 1 (peak run)) ∧ moved run ≤ 3 * peak run := by
  intro run
  have hRun : peak run = 6 ∧ run.map (fun s => s.after.capacity) = [4, 4, 9, 9, 9, 9] ∧
      moved run = 4 := by decide
  refine ⟨hRun, run_accounted _ _ ?_⟩
  show peak run ≤ _
  rw [hRun.1]
  decide

end ShellLexer.Buffer
