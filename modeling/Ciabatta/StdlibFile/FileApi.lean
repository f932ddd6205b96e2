import Ciabatta.CiaMem.PoolRuns
import Ciabatta.CiaSync.Mutex
import Ciabatta.StdlibFile.Fmt

/-!
The life of the streams of `file.c`: `_fileapi_init`, which makes the standard
ones, and any number of threads that open streams, use them and close them. A
`FILE` is a bucket of `_file_pool` and holds a `_RT_File` and the tag of a mutex.
`fopen` and `fclose` work on the record of the pool under `_g_pool_mutex`, where a
thread reads the record and writes it back in two steps. Of the loop of
`cia_mutex_lock` each try is a step; the futex calls between two tries, which
change nothing but when the next one comes, are left out.
-/

namespace Ciabatta.StdlibFile.FileApi

open Transition ByteMemory Exec CiaMem CiaSync

/-! ### Handles -/

/-- `_RT_FILE_READ`, `_RT_FILE_WRITE`, `_RT_FILE_CREATE`, `_RT_FILE_EXCLUSIVE` and
`_RT_FILE_TRUNCATE` -/
def flagRead : BitVec 32 := 0x01
def flagWrite : BitVec 32 := 0x02
def flagCreate : BitVec 32 := 0x04
def flagExclusive : BitVec 32 := 0x08
def flagTruncate : BitVec 32 := 0x10

def oRdonly : BitVec 32 := 0
def oRdwr : BitVec 32 := 2
def oCreat : BitVec 32 := 64
def oExcl : BitVec 32 := 128
def oTrunc : BitVec 32 := 512

def enoent : ℤ := 2
def eacces : ℤ := 13
def eexist : ℤ := 17
def eisdir : ℤ := 21
def einval : ℤ := 22

def rtStatusFileAccess : ℤ := 1
def rtStatusFileExists : ℤ := 3
def rtStatusFileNotExists : ℤ := 4
def rtStatusFileDirectory : ℤ := 5

structure RtFile where
  fd : Word
  flags : BitVec 32

/-- The end of `_rt_file_open`, where the call has returned `fd`: a status other than
`_RT_STATUS_OK`, or `*file`. -/
def openStatus (fd : ℤ) (rtFlags : BitVec 32) : Except ℤ RtFile :=
  if -fd = eacces then .error rtStatusFileAccess
  else if -fd = eexist then .error rtStatusFileExists
  else if -fd = enoent then .error rtStatusFileNotExists
  else if -fd = einval then .error rtErrorBadParam
  else if -fd = eisdir then .error rtStatusFileDirectory
  else if fd < 0 then .error rtStatusFileIoError
  else .ok { fd := BitVec.ofInt 64 fd, flags := rtFlags }

/-- `_rt_file_open`, where `sysOpen` makes the system call with its flags and mode. -/
def rtFileOpen {m : Type → Type} [Monad m] (sysOpen : BitVec 32 → BitVec 32 → m ℤ)
    (rtFlags : BitVec 32) : m (Except ℤ RtFile) :=
  if rtFlags &&& 0x3 = 0 then
    return .error rtErrorBadParam
  else do
    let mode :=
      if rtFlags &&& 0x03 = 0x03 then oRdwr
      else if rtFlags &&& flagRead ≠ 0 then oRdonly
      else if rtFlags &&& flagWrite ≠ 0 then oRdwr
      else 0
    let flags := 0
    let flags := if rtFlags &&& flagCreate ≠ 0 then flags ||| oCreat else flags
    let flags := if rtFlags &&& flagExclusive ≠ 0 then flags ||| oExcl else flags
    let flags := if rtFlags &&& flagTruncate ≠ 0 then flags ||| oTrunc else flags
    let fd ← sysOpen flags mode
    return openStatus fd rtFlags

/-- `_rt_file_close`, where `sysClose` answers the system call on the descriptor. -/
def rtFileClose (sysClose : Word → ℤ) (fd : Word) : ℤ :=
  if sysClose fd < 0 then rtStatusFileIoError else rtStatusOk

structure StdHandles where
  stdin : RtFile
  stdout : RtFile
  stderr : RtFile

/-- The last assignment of the function is to the flags of `stdout` once more. -/
def rtFileStdHandlesInit (handles : StdHandles) : StdHandles where
  stdin := { handles.stdin with fd := 0, flags := flagRead }
  stdout := { handles.stdout with fd := 1, flags := flagWrite }
  stderr := { handles.stderr with fd := 2 }

/-- The flags that the loop over `mode` in `fopen` collects. -/
def fopenFlags (mode : List Byte) : BitVec 32 :=
  mode.foldl (fun flags c =>
    let flags := if c = byteOf 'r' then flags ||| flagRead else flags
    if c = byteOf 'w' then flags ||| flagWrite else flags) 0

/-! ### The layout of a `FILE` -/

def sizeofFile : Word := 24

/-- `file->rt_file = rt_file`: the descriptor, then the flags and the four bytes
that pad the struct. -/
def storeRtFile (file : Word) (rtFile : RtFile) (padding : BitVec 32) : Exec Call Unit := do
  storeWord file rtFile.fd
  storeWord (file + 8) (padding ++ rtFile.flags)

/-- `file->mutex` -/
def mutexAt (m : Mem) (file : Word) : CiaMutex :=
  ⟨load32 m (file + 16)⟩

def setMutex (m : Mem) (file : Word) (mutex : CiaMutex) : Mem :=
  store32 m (file + 16) mutex.tag

/-- `cia_mutex_init(&file->mutex)` -/
def initMutex (file : Word) : Exec Call Unit := fun s =>
  .ok () { s.record (.store (file + 16) 4) with
    mem := setMutex s.mem file (ciaMutexInit (mutexAt s.mem file)) }

/-- The parameters of `_file_pool`. -/
def filePool (sys : PageCalls (Machine Call)) : PoolParams where
  allocator := ciaAllocatorPages sys
  bufferSize := 0x1000
  elementSize := sizeofFile
  alignment := 16
  alignment_pow := ⟨4, rfl⟩
  element_fits := by decide
  bucket_fits := by decide

structure StdStreams where
  stdin : Word
  stdout : Word
  stderr : Word

def StdStreams.all (std : StdStreams) : List Word :=
  [std.stdin, std.stdout, std.stderr]

def fileapiInit (sys : PageCalls (Machine Call)) : Exec Call (CiaPool × StdStreams) := do
  let filePool ← ciaPoolCreate (ciaAllocatorPages sys) 0x1000 sizeofFile 16
  let (stdin, filePool) ← ciaPoolAlloc filePool
  let (stdout, filePool) ← ciaPoolAlloc filePool
  let (stderr, filePool) ← ciaPoolAlloc filePool
  -- the handles are static, and so zero before
  let handles := rtFileStdHandlesInit ⟨⟨0, 0⟩, ⟨0, 0⟩, ⟨0, 0⟩⟩
  storeRtFile stdin handles.stdin 0
  storeRtFile stdout handles.stdout 0
  storeRtFile stderr handles.stderr 0
  initMutex stdin
  initMutex stdout
  initMutex stderr
  return (filePool, ⟨stdin, stdout, stderr⟩)

/-! ### The threads -/

/-- What a thread wants of `_file_pool`: `fopen` a bucket for the handle that it
has opened, `fclose` to free one. -/
inductive PoolCall
  | alloc (rtFile : RtFile)
  | free (file : Word)

/-- Where a thread stands. A constructor names the step the thread takes next;
`poolUpdate` holds the record of the pool as the thread has read it. -/
inductive Pc
  | outside
  | poolLock (c : PoolCall)
  | poolRead (c : PoolCall)
  | poolUpdate (c : PoolCall) (seen : CiaPool)
  | openUnlock (rtFile : RtFile) (file : Word)
  | openStore (rtFile : RtFile) (file : Word)
  | openReturn (file : Word)
  | closeUnlock
  | fileLock (file : Word)
  | fileUnlock (file : Word)

/-- Between the lock and the unlock of `_g_pool_mutex`. -/
@[simp] def Pc.InPool : Pc → Prop
  | .poolRead _ | .poolUpdate _ _ | .openUnlock _ _ | .closeUnlock => True
  | _ => False

/-- The `FILE` that only this thread knows: `fopen` has not returned it yet, or
`fclose` has not freed it yet. -/
@[simp] def Pc.held : Pc → Option Word
  | .poolLock (.free file) | .poolRead (.free file) | .poolUpdate (.free file) _
  | .openUnlock _ file | .openStore _ file | .openReturn file => some file
  | _ => none

/-- The stream on which an operation is pending. -/
@[simp] def Pc.uses : Pc → Option Word
  | .fileLock file | .fileUnlock file => some file
  | _ => none

inductive Act
  | fopen (mode : List Byte)
  | fopenNull (mode : List Byte)
  | poolLock (got : Bool)
  | poolRead
  | alloc (file : Word) (obtained : List Word)
  | free (file : Word)
  | poolUnlock
  | openStore
  | fopenReturn (file : Word)
  | operate (file : Word)
  | fileLock (got : Bool)
  | fileUnlock
  | fclose (file : Word)
  | fcloseEof (file : Word)
  | write

structure State (ι : Type*) where
  /-- `_file_pool` and the memory, with what is known of the buckets. -/
  run : PoolRun
  gPoolMutex : CiaMutex
  std : StdStreams
  /-- The streams that are open. -/
  opened : List Word
  pc : ι → Pc

variable {ι : Type*}

def State.withMem (s : State ι) (m : Mem) : State ι :=
  { s with run := { s.run with machine := { s.run.machine with mem := m } } }

variable [DecidableEq ι]

def State.goto (s : State ι) (i : ι) (pc : Pc) : State ι :=
  { s with pc := Function.update s.pc i pc }

/-- The buffers that `cia_pool_alloc` asks for in a state, as `Obtains`, when
pages come filled with zeros. -/
inductive ObtainsPages (params : PoolParams) (s : PoolRun) : List Word → Prop
  | none (h : s.pool.freelistHead ≠ 0) : ObtainsPages params s []
  | grow {base : Word} {t : Machine Call} (h : s.pool.freelistHead = 0)
      (hsupplies : Supplies params s.machine s.buffers base t)
      (hzero : ∀ x ∈ region base params.carving.size, t.mem x = 0) :
      ObtainsPages params s [base]

/-- A stream operation needs an open stream, and so does `fclose`, on which no
operation may then be pending. Of an operation only the lock and the unlock change
the `FILE`. In between the client writes what it likes outside the buffers of the
pool. -/
inductive Step (sys : PageCalls (Machine Call)) : State ι → ι × Act → State ι → Prop
  | fopen {s : State ι} {i : ι} {mode : List Byte} {sysOpen : BitVec 32 → BitVec 32 → ℤ}
      {rtFile : RtFile} (h : s.pc i = .outside)
      (hopen : rtFileOpen (m := Id) sysOpen (fopenFlags mode) = .ok rtFile) :
      Step sys s (i, .fopen mode) (s.goto i (.poolLock (.alloc rtFile)))
  | fopenNull {s : State ι} {i : ι} {mode : List Byte} {sysOpen : BitVec 32 → BitVec 32 → ℤ}
      {status : ℤ} (h : s.pc i = .outside)
      (hopen : rtFileOpen (m := Id) sysOpen (fopenFlags mode) = .error status) :
      Step sys s (i, .fopenNull mode) s
  | poolLock {s : State ι} {i : ι} {c : PoolCall} (h : s.pc i = .poolLock c) :
      Step sys s (i, .poolLock (ciaMutexLockTry s.gPoolMutex).2)
        { s.goto i (if (ciaMutexLockTry s.gPoolMutex).2 then .poolRead c else .poolLock c) with
          gPoolMutex := (ciaMutexLockTry s.gPoolMutex).1 }
  | poolRead {s : State ι} {i : ι} {c : PoolCall} (h : s.pc i = .poolRead c) :
      Step sys s (i, .poolRead) (s.goto i (.poolUpdate c s.run.pool))
  | alloc {s : State ι} {i : ι} {rtFile : RtFile} {seen pool : CiaPool} {file : Word}
      {obtained : List Word} {t : Machine Call} (h : s.pc i = .poolUpdate (.alloc rtFile) seen)
      (hobtains : ObtainsPages (filePool sys) { s.run with pool := seen } obtained)
      (hcall : ciaPoolAlloc seen s.run.machine = .ok (file, pool) t) :
      Step sys s (i, .alloc file obtained)
        { s.goto i (.openUnlock rtFile file) with
          run :=
            { pool := pool
              machine := t
              buffers := obtained ++ s.run.buffers
              live := file :: s.run.live } }
  | free {s : State ι} {i : ι} {seen pool : CiaPool} {file : Word} {t : Machine Call}
      (h : s.pc i = .poolUpdate (.free file) seen)
      (hcall : ciaPoolFree seen file s.run.machine = .ok pool t) :
      Step sys s (i, .free file)
        { s.goto i .closeUnlock with
          run := { s.run with pool := pool, machine := t, live := s.run.live.erase file } }
  | openUnlock {s : State ι} {i : ι} {rtFile : RtFile} {file : Word}
      (h : s.pc i = .openUnlock rtFile file) :
      Step sys s (i, .poolUnlock)
        { s.goto i (.openStore rtFile file) with gPoolMutex := ciaMutexUnlockStore s.gPoolMutex }
  | closeUnlock {s : State ι} {i : ι} (h : s.pc i = .closeUnlock) :
      Step sys s (i, .poolUnlock)
        { s.goto i .outside with gPoolMutex := ciaMutexUnlockStore s.gPoolMutex }
  | openStore {s : State ι} {i : ι} {rtFile : RtFile} {file : Word} {padding : BitVec 32}
      {t : Machine Call} (h : s.pc i = .openStore rtFile file)
      (hcall : storeRtFile file rtFile padding s.run.machine = .ok () t) :
      Step sys s (i, .openStore)
        { s.goto i (.openReturn file) with run := { s.run with machine := t } }
  | fopenReturn {s : State ι} {i : ι} {file : Word} (h : s.pc i = .openReturn file) :
      Step sys s (i, .fopenReturn file)
        { s.goto i .outside with opened := file :: s.opened }
  | operate {s : State ι} {i : ι} {file : Word} (h : s.pc i = .outside)
      (hopened : file ∈ s.opened) :
      Step sys s (i, .operate file) (s.goto i (.fileLock file))
  | fileLock {s : State ι} {i : ι} {file : Word} (h : s.pc i = .fileLock file) :
      Step sys s (i, .fileLock (ciaMutexLockTry (mutexAt s.run.machine.mem file)).2)
        (if (ciaMutexLockTry (mutexAt s.run.machine.mem file)).2 then
          (s.withMem (setMutex s.run.machine.mem file
            (ciaMutexLockTry (mutexAt s.run.machine.mem file)).1)).goto i (.fileUnlock file)
        else s)
  | fileUnlock {s : State ι} {i : ι} {file : Word} (h : s.pc i = .fileUnlock file) :
      Step sys s (i, .fileUnlock)
        ((s.withMem (setMutex s.run.machine.mem file
          (ciaMutexUnlockStore (mutexAt s.run.machine.mem file)))).goto i .outside)
  | fclose {s : State ι} {i : ι} {file : Word} {sysClose : Word → ℤ} (h : s.pc i = .outside)
      (hopened : file ∈ s.opened) (hidle : ∀ j, (s.pc j).uses ≠ some file)
      (hclose : rtFileClose sysClose (load64 s.run.machine.mem file) = rtStatusOk) :
      Step sys s (i, .fclose file)
        { s.goto i (.poolLock (.free file)) with opened := s.opened.erase file }
  | fcloseEof {s : State ι} {i : ι} {file : Word} {sysClose : Word → ℤ} (h : s.pc i = .outside)
      (hopened : file ∈ s.opened) (hidle : ∀ j, (s.pc j).uses ≠ some file)
      (hclose : rtFileClose sysClose (load64 s.run.machine.mem file) ≠ rtStatusOk) :
      Step sys s (i, .fcloseEof file) s
  | write {s : State ι} {i : ι} {m : Mem}
      (hclient : ∀ x, m x ≠ s.run.machine.mem x →
        ∀ b ∈ s.run.buffers, x ∉ region b (filePool sys).bufferSize.toNat) :
      Step sys s (i, .write) (s.withMem m)

/-- The threads start when `_fileapi_init` has returned. -/
def streams (sys : PageCalls (Machine Call)) (ι : Type*) [DecidableEq ι] :
    System (State ι) (ι × Act) where
  init s := ∃ m base t, Supplies (filePool sys) m [] base t ∧
    (∀ x ∈ region base (filePool sys).carving.size, t.mem x = 0) ∧
    fileapiInit sys m = .ok (s.run.pool, s.std) s.run.machine ∧ s.run.buffers = [base] ∧
    s.run.live = [s.std.stderr, s.std.stdout, s.std.stdin] ∧ s.gPoolMutex = ⟨0⟩ ∧
    s.opened = s.std.all ∧ ∀ i, s.pc i = .outside
  step := Step sys

end Ciabatta.StdlibFile.FileApi
