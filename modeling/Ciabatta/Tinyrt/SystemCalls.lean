import Ciabatta.CiaMem.PageAllocator
import Ciabatta.StdlibFile.Fopen
import Ciabatta.StdlibFile.Transfers

/-!
How the functions of `os/linux/tinyrt.c` tell the errors of the kernel from its results.
The kernel returns a number in `[-4095, -1]` for an error, and each function compares it in
a way of its own.
-/

namespace Ciabatta.Tinyrt

open ByteMemory Exec CiaMem StdlibFile

/-! ### The futex calls -/

def eagain : Word := 11

/-- `_rt_sync_wait`, of which the system call returned `result`. -/
def rtSyncWait (result : Word) : ℤ :=
  if -result = eagain then
    CiaMem.rtStatusOk
  else if 0 < (-result).toInt then
    rtErrorGeneric
  else
    CiaMem.rtStatusOk

/-- What `_rt_sync_wake_one` and `_rt_sync_wake_all` do with the number of threads to be
woken: the status, and what is stored at `n_woken` if it is not `NULL`. -/
def rtSyncWake (futex : BitVec 32 → Word) (count : BitVec 32) (nWoken : Bool) :
    ℤ × Option (BitVec 32) :=
  let result := futex count
  if result.toInt < 0 then
    (rtErrorGeneric, none)
  else
    (CiaMem.rtStatusOk, if nWoken then some (result.setWidth 32) else none)

def rtSyncWakeOne (futex : BitVec 32 → Word) (nWoken : Bool) : ℤ × Option (BitVec 32) :=
  rtSyncWake futex 1 nWoken

def rtSyncWakeAll (futex : BitVec 32 → Word) (nWoken : Bool) : ℤ × Option (BitVec 32) :=
  rtSyncWake futex 0x7fffffff nWoken

/-! ### The nine functions -/

/-- A call of a function that makes a system call, which `_rt_file_open` does not without an
access. `nWoken` is whether the out-parameter of a wake is there. -/
inductive SystemCall
  | fileOpen (rtFlags : BitVec 32) (access : rtFlags &&& 0x3 ≠ 0)
  | fileRead (size : Word) (s : ReadStream)
  | fileWrite (data : List Byte) (s : Stdio)
  | fileClose (fd : Word)
  | memAlloc (addr size : Word) (m : Machine Ciabatta.Call)
  | memFree (ptr len : Word) (m : Machine Ciabatta.Call)
  | syncWait
  | syncWakeOne (nWoken : Bool)
  | syncWakeAll (nWoken : Bool)

/-- A kernel that answers every call with `r`. -/
def answering (r : Word) : PageCalls (Machine Ciabatta.Call) where
  mmap _ _ := return r
  munmap _ _ := return r

/-- A status other than `_RT_STATUS_OK`, or what is stored in the out-parameter. -/
def reports (Q : ℤ → Option Word → Prop) : Except ℤ Word → Prop
  | .ok v => Q StdlibFile.rtStatusOk (some v)
  | .error status => Q status none

/-- Where the kernel answers `r`, the function returns with a status, and with a value
stored in its out-parameter or none, that satisfy `Q`. -/
def SystemCall.Returns (r : Word) (Q : ℤ → Option Word → Prop) : SystemCall → Prop
  | .fileOpen rtFlags _ =>
      reports Q ((FileApi.rtFileOpen (m := Id) (fun _ _ => wrapped r.toInt) rtFlags).map
        FileApi.RtFile.fd)
  | .fileRead size s => ∃ status written, Q status written ∧
      ∀ before, Yields (linuxRtFileRead size before) { s with results := r.toInt :: s.results }
        fun out _ => out.status = status ∧ out.outBytesRead = written.getD before
  | .fileWrite data s =>
      Yields (rtFileWriteOut data) { s with kernel := fun _ _ => r.toInt }
        fun written _ => reports Q written
  | .fileClose fd => Q (FileApi.rtFileClose (fun _ => r.toInt) fd) none
  | .memAlloc addr size m =>
      Yields (rtMemAlloc (answering r) addr size) m fun result _ => reports Q result
  | .memFree ptr len m =>
      Yields (rtMemFree (answering r) ptr len) m fun status _ => Q status none
  | .syncWait => Q (rtSyncWait r) none
  | .syncWakeOne nWoken =>
      Q (rtSyncWakeOne (fun _ => r) nWoken).1
        ((rtSyncWakeOne (fun _ => r) nWoken).2.map (BitVec.setWidth 64))
  | .syncWakeAll nWoken =>
      Q (rtSyncWakeAll (fun _ => r) nWoken).1
        ((rtSyncWakeAll (fun _ => r) nWoken).2.map (BitVec.setWidth 64))

/-- What the kernel returns on success: a number that is not negative, and from `mmap` any
address. -/
def SystemCall.Succeeds (r : Word) : SystemCall → Prop
  | .memAlloc _ _ _ => ¬ IsErrorCode r
  | _ => 0 ≤ r.toInt

/-- A wait that did not sleep since the value had changed. -/
def SystemCall.Excepted (r : Word) : SystemCall → Prop
  | .syncWait => -r = eagain
  | _ => False

/-- A read that found the end of the file. -/
def SystemCall.AtEnd (r : Word) : SystemCall → Prop
  | .fileRead _ _ => r = 0
  | _ => False

def SystemCall.HasOut : SystemCall → Prop
  | .fileClose _ | .memFree _ _ _ | .syncWait => False
  | .syncWakeOne nWoken | .syncWakeAll nWoken => nWoken = true
  | _ => True

/-- The result `r` of the system call is told for what it is. -/
structure SystemCall.Classifies (r : Word) (call : SystemCall) : Prop where
  error : IsErrorCode r → ¬ call.Excepted r →
    call.Returns r fun status written => status ≠ StdlibFile.rtStatusOk ∧ written = none
  success : call.Succeeds r → ¬ call.AtEnd r →
    call.Returns r fun status written =>
      status = StdlibFile.rtStatusOk ∧ (call.HasOut → written = some r)
  atEnd : call.AtEnd r → call.Returns r fun status _ => status = rtStatusFileEof

/-- The results that the comparisons of the function are right for. -/
def SystemCall.Recognises (r : Word) : SystemCall → Prop
  | .fileOpen _ _ | .fileRead _ _ | .fileWrite _ _ => r.toInt < 2 ^ 31
  | .fileClose _ | .syncWait => True
  | .memAlloc _ _ _ => ¬ IsErrorCode r ∧ r ≠ 0
  | .memFree _ _ _ => ¬ (-4095 ≤ r.toInt ∧ r.toInt ≤ -2)
  | .syncWakeOne nWoken | .syncWakeAll nWoken => nWoken = true → r.toInt < 2 ^ 32

/-- `cia_allocator_alloc` does not hand out an error code for an address. -/
def AllocatesAddress (size alignment r : Word) : Prop :=
  ∀ m, Yields (ciaAllocatorAlloc (ciaAllocatorPages (answering r)) size alignment) m
    fun addr _ => ¬ IsErrorCode addr

variable {r : Word} {Q : ℤ → Option Word → Prop} {call : SystemCall}

/-! ### Results that come through an `i32` -/

/-- Open, read and write calls, of which only the low half of the result is seen. -/
structure SystemCall.Narrow (r : Word) (call : SystemCall) : Prop where
  neg : wrapped r.toInt < 0 →
    ∃ status, status ≠ StdlibFile.rtStatusOk ∧ ∀ Q, call.Returns r Q ↔ Q status none
  done : 0 ≤ wrapped r.toInt → ¬ (call.AtEnd 0 ∧ wrapped r.toInt = 0) → ∀ Q,
    call.Returns r Q ↔ Q StdlibFile.rtStatusOk (some (BitVec.ofInt 64 (wrapped r.toInt)))
  atEnd : call.AtEnd 0 → wrapped r.toInt = 0 → ∀ Q,
    call.Returns r Q ↔ Q rtStatusFileEof none

theorem narrow_fileOpen (rtFlags : BitVec 32) (access : rtFlags &&& 0x3 ≠ 0) :
    (SystemCall.fileOpen rtFlags access).Narrow r where
  neg hneg := by
    obtain ⟨status, hstatus, hopen⟩ := Fopen.openStatus_error hneg rtFlags
    refine ⟨status, hstatus, fun Q => ?_⟩
    rw [SystemCall.Returns, Fopen.rtFileOpen_const access, hopen]
    rfl
  done hpos _ Q := by
    rw [SystemCall.Returns, Fopen.rtFileOpen_const access, Fopen.openStatus_ok hpos]
    rfl
  atEnd h := h.elim

/-- A program that returns satisfies what its result satisfies. -/
theorem yields_iff {σ α : Type} {x : EStateM Stop σ α} {s : σ} {a : α} {P : α → Prop}
    (h : Yields x s fun b _ => b = a) : Yields x s (fun b _ => P b) ↔ P a := by
  obtain ⟨b, t, hrun, rfl⟩ := h
  exact ⟨fun hP => hP.of_eq hrun, fun hP => ⟨b, t, hrun, hP⟩⟩

/-- What is stored is told by what stands there afterwards, whatever stood there before. -/
theorem getD_inj {written written' : Option Word}
    (h : ∀ before, written.getD before = written'.getD before) : written = written' := by
  cases written with
  | none =>
      cases written' with
      | none => rfl
      | some v => exact absurd ((h 0).trans (h 1).symm) (by decide)
  | some v =>
      cases written' with
      | none => exact absurd ((h 0).symm.trans (h 1)) (by decide)
      | some w => exact congrArg some (h 0)

theorem returns_fileRead_iff {size : Word} {s : ReadStream} {status : ℤ}
    (written : Option Word)
    (h : ∀ before, linuxFileRead (wrapped r.toInt) before (s.rest.take r.toInt.toNat) =
      ⟨status, written.getD before, s.rest.take r.toInt.toNat⟩) :
    (SystemCall.fileRead size s).Returns r Q ↔ Q status written := by
  have hread : ∀ before, Yields (linuxRtFileRead size before)
      { s with results := r.toInt :: s.results } fun out _ =>
        out = ⟨status, written.getD before, s.rest.take r.toInt.toNat⟩ := by
    intro before
    rw [← h before]
    exact yields_linuxRtFileRead size before { s with results := r.toInt :: s.results }
  constructor
  · rintro ⟨status', written', hQ, hall⟩
    have hsame : ∀ before, status = status' ∧ written.getD before = written'.getD before :=
      fun before => (yields_iff (hread before)).mp (hall before)
    rwa [(hsame 0).1, getD_inj fun before => (hsame before).2]
  · exact fun hQ => ⟨status, written, hQ, fun before => (yields_iff (hread before)).mpr ⟨rfl, rfl⟩⟩

theorem narrow_fileRead (size : Word) (s : ReadStream) :
    (SystemCall.fileRead size s).Narrow r where
  neg hneg := ⟨rtStatusFileIoError, by decide, fun _ =>
    returns_fileRead_iff none fun _ => linuxFileRead_neg hneg⟩
  done hpos hend _ := by
    have hne : wrapped r.toInt ≠ 0 := fun hzero => hend ⟨rfl, hzero⟩
    exact returns_fileRead_iff (some _) fun _ => linuxFileRead_pos (by omega)
  atEnd _ hzero _ := by
    refine returns_fileRead_iff none fun _ => ?_
    rw [hzero]
    rfl

theorem narrow_fileWrite (data : List Byte) (s : Stdio) :
    (SystemCall.fileWrite data s).Narrow r := by
  obtain ⟨written, t, hrun, -, hwritten⟩ :=
    yields_rtFileWriteOut data { s with kernel := fun _ _ => r.toInt }
  have hreturns : ∀ Q, (SystemCall.fileWrite data s).Returns r Q ↔ reports Q written :=
    fun Q => ⟨fun h => h.of_eq hrun, fun h => ⟨written, t, hrun, h⟩⟩
  constructor
  · intro hneg
    obtain ⟨hpos, -⟩ | ⟨-, status, hstatus, rfl⟩ := hwritten
    · exact absurd hneg (not_lt.mpr hpos)
    · exact ⟨status, hstatus, hreturns⟩
  · intro hpos _
    obtain ⟨-, rfl⟩ | ⟨hneg, -⟩ := hwritten
    · exact hreturns
    · exact absurd hneg (not_lt.mpr hpos)
  · exact fun h => h.elim

theorem wrapped_of_isErrorCode (h : IsErrorCode r) : wrapped r.toInt = r.toInt := by
  obtain ⟨hge, hle⟩ := h
  exact wrapped_eq (by omega) (by omega)

/-- The result is seen whole if its high half is only its sign. -/
theorem SystemCall.Narrow.classifies_iff (h : call.Narrow r)
    (hsucceeds : call.Succeeds r ↔ 0 ≤ r.toInt) (hexcepted : ¬ call.Excepted r)
    (hend : call.AtEnd r ↔ call.AtEnd 0 ∧ r = 0) (hout : call.HasOut) :
    call.Classifies r ↔ r.toInt < 2 ^ 31 := by
  constructor
  · intro hclass
    by_contra hlarge
    have hne : r ≠ 0 := by
      rintro rfl
      exact hlarge (by decide)
    have hok := hclass.success (hsucceeds.mpr (by omega)) fun hzero => hne (hend.mp hzero).2
    obtain ⟨k, hk, hge, hlt⟩ := exists_wrapped r.toInt
    by_cases hneg : wrapped r.toInt < 0
    · obtain ⟨status, hstatus, hreturns⟩ := h.neg hneg
      exact hstatus ((hreturns _).mp hok).1
    · by_cases hzero : call.AtEnd 0 ∧ wrapped r.toInt = 0
      · exact absurd ((h.atEnd hzero.1 hzero.2 _).mp hok).1 (by decide)
      · have hr := ((h.done (not_lt.mp hneg) hzero _).mp hok).2 hout
        have hsame := congrArg BitVec.toInt (Option.some.inj hr)
        rw [BitVec.toInt_ofInt, Int.bmod_eq_of_le (by omega) (by omega)] at hsame
        omega
  · intro hsmall
    refine ⟨fun herror _ => ?_, fun hsuccess hnot => ?_, fun hzero => ?_⟩
    · have hneg : wrapped r.toInt < 0 := by
        rw [wrapped_of_isErrorCode herror]
        exact Int.lt_of_le_sub_one herror.2
      obtain ⟨status, hstatus, hreturns⟩ := h.neg hneg
      exact (hreturns _).mpr ⟨hstatus, rfl⟩
    · have hpos := hsucceeds.mp hsuccess
      have hwrapped : wrapped r.toInt = r.toInt := wrapped_eq (by omega) hsmall
      have hnotEnd : ¬ (call.AtEnd 0 ∧ wrapped r.toInt = 0) := by
        rintro ⟨hzero, hr⟩
        rw [hwrapped] at hr
        exact hnot (hend.mpr ⟨hzero, BitVec.eq_of_toInt_eq hr⟩)
      have hdone : 0 ≤ wrapped r.toInt := by
        rw [hwrapped]
        exact hpos
      rw [h.done hdone hnotEnd, hwrapped, BitVec.ofInt_toInt]
      exact ⟨rfl, fun _ => rfl⟩
    · obtain ⟨hend0, rfl⟩ := hend.mp hzero
      exact (h.atEnd hend0 (by decide) _).mpr rfl

/-! ### The other functions -/

theorem classifies_fileClose (fd : Word) : (SystemCall.fileClose fd).Classifies r where
  error herror _ := by
    have hneg : r.toInt < 0 := Int.lt_of_le_sub_one herror.2
    rw [SystemCall.Returns, FileApi.rtFileClose, if_pos hneg]
    exact ⟨by decide, rfl⟩
  success hsuccess _ := by
    have hpos : ¬ r.toInt < 0 := not_lt.mpr hsuccess
    rw [SystemCall.Returns, FileApi.rtFileClose, if_neg hpos]
    exact ⟨rfl, fun h => h.elim⟩
  atEnd h := h.elim

/-- `-r` tells an error code from what is not negative. -/
theorem toInt_neg_of_isErrorCode (h : IsErrorCode r) : 0 < (-r).toInt := by
  obtain ⟨hge, hle⟩ := h
  rw [BitVec.toInt_neg, Int.bmod_eq_of_le (by omega) (by omega)]
  omega

theorem toInt_neg_of_nonneg (h : 0 ≤ r.toInt) : (-r).toInt ≤ 0 := by
  have hlt := BitVec.toInt_lt (x := r)
  rw [BitVec.toInt_neg, Int.bmod_eq_of_le (by omega) (by omega)]
  omega

theorem classifies_syncWait : SystemCall.syncWait.Classifies r where
  error herror hnot := by
    have hagain : ¬ -r = eagain := hnot
    rw [SystemCall.Returns, rtSyncWait, if_neg hagain, if_pos (toInt_neg_of_isErrorCode herror)]
    exact ⟨by decide, rfl⟩
  success hsuccess _ := by
    have hnot := not_lt.mpr (toInt_neg_of_nonneg hsuccess)
    have hagain : ¬ -r = eagain := by
      intro h
      rw [h] at hnot
      exact hnot (by decide)
    rw [SystemCall.Returns, rtSyncWait, if_neg hagain, if_neg hnot]
    exact ⟨rfl, fun h => h.elim⟩
  atEnd h := h.elim

theorem returns_memAlloc (addr size : Word) (m : Machine Ciabatta.Call)
    (Q : ℤ → Option Word → Prop) :
    (SystemCall.memAlloc addr size m).Returns r Q ↔
      reports Q (if r = 0 then .error rtErrorGeneric else .ok r) := by
  refine yields_iff ⟨_, m, ?_, rfl⟩
  rw [rtMemAlloc]
  change (if r = 0 then return .error rtErrorGeneric else return .ok r :
    Exec Ciabatta.Call (Except ℤ Word)) m = _
  split <;> rfl

/-- An error code is taken for an address, and the address zero for an error. -/
theorem classifies_memAlloc_iff (addr size : Word) (m : Machine Ciabatta.Call) :
    (SystemCall.memAlloc addr size m).Classifies r ↔ ¬ IsErrorCode r ∧ r ≠ 0 := by
  constructor
  · intro h
    have hcode : ¬ IsErrorCode r := by
      intro hcode
      have herror := h.error hcode id
      rw [returns_memAlloc, if_neg hcode.ne_zero] at herror
      exact herror.1 rfl
    refine ⟨hcode, fun hnull => ?_⟩
    have hok := h.success hcode id
    rw [returns_memAlloc, if_pos hnull] at hok
    exact absurd hok.1 (by decide)
  · rintro ⟨hcode, hnull⟩
    refine ⟨fun h => absurd h hcode, fun _ _ => ?_, fun h => h.elim⟩
    rw [returns_memAlloc, if_neg hnull]
    exact ⟨rfl, fun _ => rfl⟩

theorem returns_memFree (ptr len : Word) (m : Machine Ciabatta.Call) (Q : ℤ → Option Word → Prop) :
    (SystemCall.memFree ptr len m).Returns r Q ↔
      Q (if r = -1 then rtErrorGeneric else CiaMem.rtStatusOk) none := by
  refine yields_iff (P := fun status => Q status none) ⟨_, m, ?_, rfl⟩
  rw [rtMemFree]
  change (if r = -1 then return rtErrorGeneric else return CiaMem.rtStatusOk :
    Exec Ciabatta.Call ℤ) m = _
  split <;> rfl

/-- Of the error codes only the first is seen. -/
theorem classifies_memFree_iff (ptr len : Word) (m : Machine Ciabatta.Call) :
    (SystemCall.memFree ptr len m).Classifies r ↔ ¬ (-4095 ≤ r.toInt ∧ r.toInt ≤ -2) := by
  constructor
  · rintro h ⟨hge, hle⟩
    have hne : r ≠ -1 := by
      rintro rfl
      exact absurd hle (by decide)
    have herror := h.error ⟨hge, hle.trans (by decide)⟩ id
    rw [returns_memFree, if_neg hne] at herror
    exact herror.1 rfl
  · intro hcode
    refine ⟨fun ⟨hge, hle⟩ _ => ?_, fun hsuccess _ => ?_, fun h => h.elim⟩
    · have hone : r = -1 := by
        apply BitVec.eq_of_toInt_eq
        have htoInt : (-1 : Word).toInt = -1 := by decide
        omega
      rw [returns_memFree, if_pos hone]
      exact ⟨by decide, rfl⟩
    · have hne : r ≠ -1 := by
        rintro rfl
        have hpos : 0 ≤ (-1 : Word).toInt := hsuccess
        exact absurd hpos (by decide)
      rw [returns_memFree, if_neg hne]
      exact ⟨rfl, fun h => h.elim⟩

/-- The number of threads woken is stored as a `u32`. -/
theorem classifies_wake_iff {count : BitVec 32} {nWoken : Bool}
    (hreturns : ∀ Q, call.Returns r Q ↔ Q (rtSyncWake (fun _ => r) count nWoken).1
      ((rtSyncWake (fun _ => r) count nWoken).2.map (BitVec.setWidth 64)))
    (hsucceeds : call.Succeeds r ↔ 0 ≤ r.toInt) (hend : ¬ call.AtEnd r)
    (hout : call.HasOut ↔ nWoken = true) :
    call.Classifies r ↔ (nWoken = true → r.toInt < 2 ^ 32) := by
  have hlow : 0 ≤ r.toInt → ((r.setWidth 32).setWidth 64 = r ↔ r.toInt < 2 ^ 32) := by
    intro hpos
    have hlt := r.isLt
    rw [BitVec.toInt_eq_toNat_cond] at hpos ⊢
    rw [← BitVec.toNat_inj, BitVec.toNat_setWidth, BitVec.toNat_setWidth]
    split at hpos <;> split <;> omega
  constructor
  · intro h hwoken
    by_cases hneg : r.toInt < 0
    · omega
    · have hpos := not_lt.mp hneg
      have hok := h.success (hsucceeds.mpr hpos) hend
      rw [hreturns, rtSyncWake, if_neg hneg] at hok
      have hstored := hok.2 (hout.mpr hwoken)
      rw [if_pos hwoken] at hstored
      exact (hlow hpos).mp (Option.some.inj hstored)
  · intro hwoken
    refine ⟨fun hcode _ => ?_, fun hsuccess _ => ?_, fun h => absurd h hend⟩
    · rw [hreturns, rtSyncWake, if_pos (Int.lt_of_le_sub_one hcode.2)]
      exact ⟨by decide, rfl⟩
    · have hpos := hsucceeds.mp hsuccess
      rw [hreturns, rtSyncWake, if_neg (not_lt.mpr hpos)]
      refine ⟨rfl, fun h => ?_⟩
      have hw := hout.mp h
      rw [if_pos hw]
      exact congrArg some ((hlow hpos).mpr (hwoken hw))

/-! ### The page allocator -/

/-- An error code that `_rt_mem_alloc` passes on `cia_allocator_alloc` passes on. -/
theorem allocatesAddress_iff (size alignment r : Word) :
    AllocatesAddress size alignment r ↔ alignment > 0x1000 ∨ ¬ IsErrorCode r := by
  by_cases halignment : alignment > 0x1000
  · have hnull : ¬ IsErrorCode 0 := fun hcode => hcode.ne_zero rfl
    refine iff_of_true (fun m => ?_) (.inl halignment)
    exact ⟨_, _, ciaAllocatorAlloc_pages_refused halignment, hnull⟩
  · have hrun : ∀ m, Yields
        (ciaAllocatorAlloc (ciaAllocatorPages (answering r)) size alignment) m
        fun addr _ => addr = r := fun m => ⟨_, _, ciaAllocatorAlloc_pages halignment rfl, rfl⟩
    rw [AllocatesAddress, or_iff_right halignment]
    exact ⟨fun h => (yields_iff (hrun ⟨fun _ => 0, []⟩)).mp (h _),
      fun h m => (yields_iff (hrun m)).mpr h⟩

/-! ### Main result -/

theorem classifies_iff (call : SystemCall) (r : Word) :
    call.Classifies r ↔ call.Recognises r := by
  cases call with
  | fileOpen rtFlags access =>
      exact (narrow_fileOpen rtFlags access).classifies_iff Iff.rfl id (by simp [SystemCall.AtEnd])
        trivial
  | fileRead size s =>
      exact (narrow_fileRead size s).classifies_iff Iff.rfl id (by simp [SystemCall.AtEnd]) trivial
  | fileWrite data s =>
      exact (narrow_fileWrite data s).classifies_iff Iff.rfl id (by simp [SystemCall.AtEnd]) trivial
  | fileClose fd => exact iff_of_true (classifies_fileClose fd) trivial
  | memAlloc addr size m => exact classifies_memAlloc_iff addr size m
  | memFree ptr len m => exact classifies_memFree_iff ptr len m
  | syncWait => exact iff_of_true classifies_syncWait trivial
  | syncWakeOne nWoken => exact classifies_wake_iff (fun _ => Iff.rfl) Iff.rfl id Iff.rfl
  | syncWakeAll nWoken => exact classifies_wake_iff (fun _ => Iff.rfl) Iff.rfl id Iff.rfl

/-- Which results each function tells for what they are, and which `cia_allocator_alloc`
hands out for an address. -/
theorem systemCalls_classified (call : SystemCall) (r size alignment : Word) :
    (call.Classifies r ↔ call.Recognises r) ∧
      (AllocatesAddress size alignment r ↔ alignment > 0x1000 ∨ ¬ IsErrorCode r) :=
  ⟨classifies_iff call r, allocatesAddress_iff size alignment r⟩

/-- `mmap` without memory, and `munmap` of a length of zero. -/
theorem systemCalls_classified_fails :
    ¬ (SystemCall.memAlloc 0 0x1000 ⟨fun _ => 0, []⟩).Classifies (-12) ∧
      ¬ (SystemCall.memFree 0x1000 0 ⟨fun _ => 0, []⟩).Classifies (-22) ∧
      ¬ AllocatesAddress 0x1000 16 (-12) := by
  have hcode : IsErrorCode (-12) := ⟨by decide, by decide⟩
  refine ⟨fun h => ?_, fun h => ?_, fun h => ?_⟩
  · exact ((classifies_memAlloc_iff _ _ _).mp h).1 hcode
  · exact (classifies_memFree_iff _ _ _).mp h ⟨by decide, by decide⟩
  · exact ((allocatesAddress_iff _ _ _).mp h).resolve_left (by decide) hcode

end Ciabatta.Tinyrt
