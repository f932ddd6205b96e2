import Ciabatta.Lib.WholeRun
import Ciabatta.StdlibFile.FileApi

/-!
`fopen` of `file.c` from its call to its return, with the open call that it makes and the
descriptor that it leaves open. What the system call is asked for is the first of its two
numbers, and `_rt_file_open` passes the access mode as the second.
-/

namespace Ciabatta.StdlibFile.Fopen

open ByteMemory Exec CiaMem CiaSync FileApi

/-- The numbers passed to `SYS_open`, and what the call returned. -/
structure OpenCall where
  flags : BitVec 32
  mode : BitVec 32
  result : ℤ

structure State where
  /-- `_file_pool` -/
  filePool : CiaPool
  /-- `_g_pool_mutex` -/
  gPoolMutex : CiaMutex
  machine : Machine Call
  /-- Oldest call first. -/
  opens : List OpenCall
  /-- The descriptors that are open. -/
  descriptors : List ℤ

abbrev FopenM := EStateM Stop State

/-- `sys_open`, where `kernel` answers the call. The wrapper returns an `i32`. -/
def sysOpen (kernel : BitVec 32 → BitVec 32 → ℤ) (flags mode : BitVec 32) : FopenM ℤ := fun s =>
  let result := kernel flags mode
  .ok (BitVec.ofInt 32 result).toInt
    { s with
      opens := s.opens ++ [⟨flags, mode, result⟩]
      descriptors := if 0 ≤ result then result :: s.descriptors else s.descriptors }

def onMachine {α : Type} (x : Exec Call α) : FopenM α := fun s =>
  match x s.machine with
  | .ok a m => .ok a { s with machine := m }
  | .error e m => .error e { s with machine := m }

/-- `cia_mutex_lock(&_g_pool_mutex)`. Where no other thread releases the mutex, the loop
ends with its first pass or never. -/
def lockPool : FopenM Unit := fun s =>
  match ciaMutexLockTry s.gPoolMutex with
  | (mutex, true) => .ok () { s with gPoolMutex := mutex }
  | (_, false) => .error .outOfFuel s

/-- `cia_mutex_unlock(&_g_pool_mutex)`, which has nobody to wake. -/
def unlockPool : FopenM Unit := fun s =>
  .ok () { s with gPoolMutex := ciaMutexUnlockStore s.gPoolMutex }

def setFilePool (pool : CiaPool) : FopenM Unit := fun s => .ok () { s with filePool := pool }

/-- `cia_pool_alloc(&_file_pool)` -/
def allocFile : FopenM Word := do
  let s ← get
  let (file, pool) ← onMachine (ciaPoolAlloc s.filePool)
  setFilePool pool
  return file

/-- What `fopen` does once the file is open. -/
def fopenFile (padding : BitVec 32) (rtFile : RtFile) : FopenM Word := do
  lockPool
  let file ← allocFile
  unlockPool
  onMachine (storeRtFile file rtFile padding)
  return file

/-- `fopen`, of a file on which `kernel` answers. -/
def fopen (kernel : BitVec 32 → BitVec 32 → ℤ) (padding : BitVec 32) (mode : CString) :
    FopenM Word := do
  match ← rtFileOpen (sysOpen kernel) (fopenFlags mode.bytes) with
  | .error _ => return 0
  | .ok rtFile => fopenFile padding rtFile

/-! ### Access modes -/

def oAccmode : BitVec 32 := 3
def oWronly : BitVec 32 := 1

def PermitsReading (flags : BitVec 32) : Prop :=
  flags &&& oAccmode = oRdonly ∨ flags &&& oAccmode = oRdwr

def PermitsWriting (flags : BitVec 32) : Prop :=
  flags &&& oAccmode = oWronly ∨ flags &&& oAccmode = oRdwr

theorem permitsReading_zero : PermitsReading 0 := .inl rfl

theorem not_permitsWriting_zero : ¬ PermitsWriting 0 := by
  rw [PermitsWriting]
  decide

/-- `fopen` asks for what is in `mode`, and for nothing if it has neither letter. -/
structure RequestsAccess (mode : CString) : Prop where
  refused : byteOf 'r' ∉ mode.bytes → byteOf 'w' ∉ mode.bytes →
    ∀ kernel padding s, fopen kernel padding mode s = .ok 0 s
  requested : byteOf 'r' ∈ mode.bytes ∨ byteOf 'w' ∈ mode.bytes →
    ∀ kernel padding s, ∃ call, (final (fopen kernel padding mode s)).opens = s.opens ++ [call] ∧
      (byteOf 'r' ∈ mode.bytes → PermitsReading call.flags) ∧
      (byteOf 'w' ∈ mode.bytes → PermitsWriting call.flags)

variable {kernel : BitVec 32 → BitVec 32 → ℤ} {padding : BitVec 32} {mode : CString} {s : State}

/-! ### The flags -/

/-- The library flags of a mode with or without the two letters. -/
def accessFlags (read write : Bool) : BitVec 32 :=
  (if read then flagRead else 0) ||| (if write then flagWrite else 0)

theorem foldl_accessFlags (mode : List Byte) (read write : Bool) :
    mode.foldl (fun flags c =>
      let flags := if c = byteOf 'r' then flags ||| flagRead else flags
      if c = byteOf 'w' then flags ||| flagWrite else flags) (accessFlags read write) =
      accessFlags (read || byteOf 'r' ∈ mode) (write || byteOf 'w' ∈ mode) := by
  induction mode generalizing read write with
  | nil => simp
  | cons c mode ih =>
      have hstep : (let flags := if c = byteOf 'r' then accessFlags read write ||| flagRead
            else accessFlags read write
          if c = byteOf 'w' then flags ||| flagWrite else flags) =
          accessFlags (read || c = byteOf 'r') (write || c = byteOf 'w') := by
        by_cases hread : c = byteOf 'r'
        · cases read <;> cases write <;> simp [hread] <;> decide
        · by_cases hwrite : c = byteOf 'w'
          · cases read <;> cases write <;> simp [hwrite] <;> decide
          · simp [hread, hwrite]
      rw [List.foldl_cons, hstep, ih]
      congr 1 <;> simp [Bool.or_assoc, eq_comm]

theorem fopenFlags_eq (mode : List Byte) :
    fopenFlags mode = accessFlags (byteOf 'r' ∈ mode) (byteOf 'w' ∈ mode) := by
  have hfold := foldl_accessFlags mode false false
  rw [Bool.false_or, Bool.false_or] at hfold
  exact hfold

/-! ### The open call -/

theorem rtFileOpen_none : rtFileOpen (sysOpen kernel) (accessFlags false false) =
    return .error rtErrorBadParam := rfl

/-- Where the answer does not depend on what is asked for. -/
theorem rtFileOpen_const {rtFlags : BitVec 32} (h : rtFlags &&& 0x3 ≠ 0) (fd : ℤ) :
    rtFileOpen (m := Id) (fun _ _ => fd) rtFlags = openStatus fd rtFlags := by
  rw [rtFileOpen, if_neg h]
  rfl

theorem openStatus_ok {fd : ℤ} (h : 0 ≤ fd) (rtFlags : BitVec 32) :
    openStatus fd rtFlags = .ok { fd := BitVec.ofInt 64 fd, flags := rtFlags } := by
  rw [openStatus, eacces, eexist, enoent, einval, eisdir]
  rw [if_neg (by omega), if_neg (by omega), if_neg (by omega), if_neg (by omega),
    if_neg (by omega), if_neg (by omega)]

theorem openStatus_error {fd : ℤ} (h : fd < 0) (rtFlags : BitVec 32) :
    ∃ status, status ≠ rtStatusOk ∧ openStatus fd rtFlags = .error status := by
  rw [openStatus]
  split_ifs <;> exact ⟨_, by decide, rfl⟩

/-- One call, with the access mode as its second number. -/
theorem rtFileOpen_accessFlags {read write : Bool} (h : (read || write) = true) :
    rtFileOpen (sysOpen kernel) (accessFlags read write) = (do
      let fd ← sysOpen kernel 0 (if write then oRdwr else oRdonly)
      return openStatus fd (accessFlags read write)) := by
  cases read <;> cases write
  · cases h
  all_goals rfl

/-! ### The run -/

/-- The access that the second number of the call would ask for. -/
def accessMode (mode : CString) : BitVec 32 :=
  if mode.bytes.contains (byteOf 'w') then oRdwr else oRdonly

/-- The state after the open call. -/
def State.called (s : State) (kernel : BitVec 32 → BitVec 32 → ℤ) (mode : CString) : State where
  filePool := s.filePool
  gPoolMutex := s.gPoolMutex
  machine := s.machine
  opens := s.opens ++ [⟨0, accessMode mode, kernel 0 (accessMode mode)⟩]
  descriptors :=
    if 0 ≤ kernel 0 (accessMode mode) then kernel 0 (accessMode mode) :: s.descriptors
    else s.descriptors

/-- `fopen` with neither letter does nothing. -/
theorem fopen_refused (hr : byteOf 'r' ∉ mode.bytes) (hw : byteOf 'w' ∉ mode.bytes) :
    fopen kernel padding mode s = .ok 0 s := by
  rw [fopen, fopenFlags_eq, decide_eq_false hr, decide_eq_false hw, rtFileOpen_none]
  rfl

/-- With one of them it makes one call, which asks for no access but that of the number 0. -/
theorem fopen_called (h : byteOf 'r' ∈ mode.bytes ∨ byteOf 'w' ∈ mode.bytes) :
    fopen kernel padding mode s =
      (match openStatus (BitVec.ofInt 32 (kernel 0 (accessMode mode))).toInt
          (fopenFlags mode.bytes) with
        | .error _ => return 0
        | .ok rtFile => fopenFile padding rtFile : FopenM Word) (s.called kernel mode) := by
  have hor : (decide (byteOf 'r' ∈ mode.bytes) || decide (byteOf 'w' ∈ mode.bytes)) = true := by
    simpa using h
  have hmode : (if decide (byteOf 'w' ∈ mode.bytes) then oRdwr else oRdonly) = accessMode mode := by
    simp [accessMode]
  rw [fopen, fopenFlags_eq, rtFileOpen_accessFlags hor, hmode, bind_assoc]
  rfl

/-! ### What follows the open call -/

/-- What the open call leaves behind. -/
def State.SameCalls (s t : State) : Prop :=
  t.opens = s.opens ∧ t.descriptors = s.descriptors

theorem reflects_onMachine {α : Type} (x : Exec Call α) :
    Reflects (fun t => ¬ s.SameCalls t) (onMachine x) := by
  intro t h
  rw [onMachine] at h
  cases hrun : x t.machine <;> rw [hrun] at h <;> exact h

theorem reflects_allocFile : Reflects (fun t => ¬ s.SameCalls t) allocFile := by
  intro t
  have hset : ∀ pool, Reflects (fun t => ¬ s.SameCalls t) (setFilePool pool) := fun _ _ h => h
  exact (reflects_onMachine (ciaPoolAlloc t.filePool)).bind
    (fun r => (hset r.2).bind fun _ => reflects_pure _) t

/-- Once the file is open no more calls are made. -/
theorem sameCalls_fopenFile (padding : BitVec 32) (rtFile : RtFile) (s : State) :
    s.SameCalls (final (fopenFile padding rtFile s)) := by
  refine Reflects.keeps (I := fun t => s.SameCalls t) ?_ ⟨rfl, rfl⟩
  have hlock : Reflects (fun t => ¬ s.SameCalls t) lockPool := by
    intro t h
    rw [lockPool] at h
    split at h <;> exact h
  have hunlock : Reflects (fun t => ¬ s.SameCalls t) unlockPool := fun _ h => h
  refine hlock.bind fun _ => reflects_allocFile.bind fun file => ?_
  exact hunlock.bind fun _ => (reflects_onMachine _).bind fun _ => reflects_pure _

theorem fopen_opens (h : byteOf 'r' ∈ mode.bytes ∨ byteOf 'w' ∈ mode.bytes) :
    (final (fopen kernel padding mode s)).opens =
      s.opens ++ [⟨0, accessMode mode, kernel 0 (accessMode mode)⟩] := by
  rw [fopen_called h]
  cases openStatus _ (fopenFlags mode.bytes) with
  | error status => rfl
  | ok rtFile => exact (sameCalls_fopenFile padding rtFile _).1

/-! ### Main result -/

/-- Only the mode without a `w` gets the access that it asks for. -/
theorem requestsAccess_iff (mode : CString) :
    RequestsAccess mode ↔ byteOf 'w' ∉ mode.bytes := by
  constructor
  · intro h hw
    obtain ⟨call, hcalls, -, hwriting⟩ := h.requested (.inr hw) (fun _ _ => 0) 0
      ⟨⟨ciaAllocatorNull, 0, 0, 0, 0, 0⟩, ⟨0⟩, ⟨fun _ => 0, []⟩, [], []⟩
    rw [fopen_opens (.inr hw)] at hcalls
    have hcall := List.singleton_inj.mp (List.append_cancel_left hcalls)
    rw [← hcall] at hwriting
    exact not_permitsWriting_zero (hwriting hw)
  · intro hw
    refine ⟨fun hr _ kernel padding s => fopen_refused hr hw, fun hor kernel padding s => ?_⟩
    exact ⟨_, fopen_opens hor, fun _ => permitsReading_zero, fun h => absurd h hw⟩

/-- A mode with a `w`. -/
theorem requestsAccess_fails : ¬ RequestsAccess ⟨[byteOf 'w'], by decide⟩ := by
  intro h
  obtain ⟨call, hcalls, -, hwriting⟩ := h.requested (.inr List.mem_cons_self) (fun _ _ => -2) 0
    ⟨⟨ciaAllocatorNull, 0, 0, 0, 0, 0⟩, ⟨0⟩, ⟨fun _ => 0, []⟩, [], []⟩
  have hcall : [⟨0, oRdwr, -2⟩] = [call] := hcalls
  rw [← List.singleton_inj.mp hcall] at hwriting
  exact not_permitsWriting_zero (hwriting List.mem_cons_self)

end Ciabatta.StdlibFile.Fopen
