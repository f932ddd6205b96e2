import Mathlib.Data.Stream.Init
import Ciabatta.Lib.Settles
import Ciabatta.Loader.StackLines

/-!
The parser of `stack.c` reads a tape: what each call of `read_char` meets, whether a
character, the end of the file, an error of the read, or a read that fills the buffer.
-/

namespace Ciabatta.Loader

open ByteMemory Exec

inductive ReadEvent
  | char (c : Byte)
  | eof
  | error
  /-- A read of `sizeof line_buf` bytes, which leaves no room for the NUL. -/
  | full
  deriving DecidableEq

/-- What the call returns that meets the event. -/
def ReadEvent.returned : ReadEvent → ℤ
  | .char c => c.toInt
  | _ => -1

/-- What it leaves in `last_char`, where `ch` was before. -/
def ReadEvent.leaves (ch : ℤ) : ReadEvent → ℤ
  | .char c => c.toInt
  | .eof => -1
  | _ => ch

theorem ReadEvent.exists_char_of_returned {e : ReadEvent} (h : 0 ≤ e.returned) :
    ∃ c, e = .char c := by
  cases e with
  | char c => exact ⟨c, rfl⟩
  | eof => cases h
  | error => cases h
  | full => cases h

def ReadResult.events : ReadResult → List ReadEvent
  | .error => [.error]
  | .data [] => [.eof]
  | .data bytes => if bytes.length < lineBufSize then bytes.map .char else [.full]

theorem ReadResult.events_ne_nil (result : ReadResult) : result.events ≠ [] := by
  cases result with
  | error => simp [events]
  | data bytes =>
      cases bytes with
      | nil => simp [events]
      | cons c d =>
          rw [events]
          · split
            · simp
            · simp
          · simp

/-- The events of the reads to come. -/
def tape (s : MapsState) : Stream' ReadEvent :=
  Stream'.appendStream' (s.reads.flatMap ReadResult.events)
    (Stream'.cycle s.after.events s.after.events_ne_nil)

/-- The same with what is left in the buffer. -/
def pending (s : MapsState) : Stream' ReadEvent :=
  Stream'.appendStream' ((s.buffer.data.drop s.buffer.offset).map .char) (tape s)

/-- `last_char` after `k` calls; before the first it is not set. -/
def charAt (T : Stream' ReadEvent) : ℕ → ℤ
  | 0 => 0
  | k + 1 => (T.get k).leaves (charAt T k)

/-- After `k` calls of `read_char`. -/
structure Started (T : Stream' ReadEvent) (fd : ℤ) (closed : List ℤ) (k : ℕ) (s : MapsState) :
    Prop where
  pending : pending s = T.drop k
  size : s.buffer.lastReadSize = s.buffer.data.length
  dataSize : s.buffer.dataSize = lineBufSize
  fd : s.buffer.fd = fd
  closed : s.closed = closed

/-- With the character that the calls left in `last_char`. -/
structure On (T : Stream' ReadEvent) (fd : ℤ) (closed : List ℤ) (k : ℕ) (s : MapsState) :
    Prop where
  started : Started T fd closed k s
  char : s.buffer.lastChar = charAt T k

variable {T : Stream' ReadEvent} {fd : ℤ} {closed : List ℤ} {k : ℕ} {s : MapsState}

/-- A read takes its events from the tape. -/
theorem exists_sysRead (s : MapsState) : ∃ result t, sysRead s = .ok result t ∧
    tape s = Stream'.appendStream' result.events (tape t) ∧ t.buffer = s.buffer ∧
    t.closed = s.closed := by
  cases hreads : s.reads with
  | nil =>
      refine ⟨s.after, s, by simp only [sysRead, hreads], ?_, rfl, rfl⟩
      simp only [tape, hreads, List.flatMap_nil, Stream'.nil_append_stream]
      exact Stream'.cycle_eq _ _
  | cons result reads =>
      refine ⟨result, { s with reads := reads }, by simp only [sysRead, hreads], ?_, rfl, rfl⟩
      simp only [tape, hreads, List.flatMap_cons, Stream'.append_append_stream]

theorem get_of_drop_eq_cons {e : ReadEvent} {U : Stream' ReadEvent}
    (h : Stream'.cons e U = T.drop k) : T.get k = e ∧ U = T.drop (k + 1) := by
  constructor
  · rw [← Stream'.head_drop, ← h]
    rfl
  · rw [← Stream'.tail_drop', ← h]
    rfl

theorem exists_takeChar {c : Byte} {d : List Byte}
    (hdrop : s.buffer.data.drop s.buffer.offset = c :: d)
    (hrest : Stream'.appendStream' (d.map .char) (tape s) = T.drop (k + 1))
    (hsize : s.buffer.lastReadSize = s.buffer.data.length)
    (hdataSize : s.buffer.dataSize = lineBufSize) :
    ∃ t, takeChar s = .ok c.toInt t ∧ Started T s.buffer.fd s.closed (k + 1) t ∧
      t.buffer.lastChar = c.toInt := by
  refine ⟨_, takeChar_eq hdrop, ⟨?_, hsize, hdataSize, rfl, rfl⟩, rfl⟩
  rw [← hrest, ← drop_succ_of_drop hdrop]
  rfl

/-- What `read_char` does in `s` where it meets the event `e`. -/
def MeetsEvent (T : Stream' ReadEvent) (fd : ℤ) (closed : List ℤ) (k : ℕ) (s : MapsState)
    (e : ReadEvent) : Prop :=
  if e = .full then Stops readChar s .outOfBounds
  else ∃ t, readChar s = .ok e.returned t ∧ Started T fd closed (k + 1) t ∧
    t.buffer.lastChar = e.leaves s.buffer.lastChar

theorem meetsEvent_of_ne {e : ReadEvent} {t : MapsState} (he : e ≠ .full)
    (hrun : readChar s = .ok e.returned t) (ht : Started T fd closed (k + 1) t)
    (hchar : t.buffer.lastChar = e.leaves s.buffer.lastChar) : MeetsEvent T fd closed k s e := by
  rw [MeetsEvent, if_neg he]
  exact ⟨t, hrun, ht, hchar⟩

/-- A call that finds a character in the buffer. -/
theorem meetsEvent_buffered {c : Byte} {d : List Byte} (h : Started T fd closed k s)
    (hdrop : s.buffer.data.drop s.buffer.offset = c :: d) :
    T.get k = .char c ∧ MeetsEvent T fd closed k s (.char c) := by
  obtain ⟨hpending, hsize, hdataSize, rfl, rfl⟩ := h
  rw [pending, hdrop, List.map_cons, Stream'.cons_append_stream] at hpending
  obtain ⟨hevent, hrest⟩ := get_of_drop_eq_cons hpending
  obtain ⟨t, htake, ht, hchar⟩ := exists_takeChar hdrop hrest hsize hdataSize
  exact ⟨hevent, meetsEvent_of_ne nofun ((readChar_inside hdrop hsize).trans htake) ht hchar⟩

/-- A call that reads from the file. -/
theorem meetsEvent_refilled (h : Started T fd closed k s)
    (hempty : s.buffer.offset ≥ s.buffer.lastReadSize) :
    MeetsEvent T fd closed k s (T.get k) := by
  obtain ⟨hpending, hsize, hdataSize, rfl, rfl⟩ := h
  obtain ⟨result, t, hread, htape, hbuffer, hclosed⟩ := exists_sysRead s
  have hpast : s.buffer.data.drop s.buffer.offset = [] := List.drop_eq_nil_of_le (hsize ▸ hempty)
  rw [pending, hpast, List.map_nil, Stream'.nil_append_stream, htape] at hpending
  cases result with
  | error =>
      obtain ⟨hevent, hrest⟩ := get_of_drop_eq_cons hpending
      rw [hevent]
      refine meetsEvent_of_ne nofun (readChar_error hempty hread) ?_ (by rw [hbuffer]; rfl)
      exact ⟨by rw [← hrest, pending, hbuffer, hpast]; rfl, hbuffer ▸ hsize, hbuffer ▸ hdataSize,
        by rw [hbuffer], hclosed⟩
  | data bytes =>
      cases bytes with
      | nil =>
          obtain ⟨hevent, hrest⟩ := get_of_drop_eq_cons hpending
          rw [hevent]
          refine meetsEvent_of_ne nofun (readChar_eof hempty hread) ?_ rfl
          exact ⟨by rw [← hrest, pending, hbuffer, hpast]; rfl, hbuffer ▸ hsize,
            hbuffer ▸ hdataSize, by rw [hbuffer], hclosed⟩
      | cons c d =>
          by_cases hroom : (c :: d).length < lineBufSize
          · rw [ReadResult.events, if_pos hroom] at hpending
            · obtain ⟨hevent, hrest⟩ := get_of_drop_eq_cons hpending
              rw [hevent]
              obtain ⟨u, htake, hu, hchar⟩ := @exists_takeChar T k { t with buffer :=
                { t.buffer with data := c :: d, lastReadSize := (c :: d).length, offset := 0 } }
                c d rfl hrest rfl (hbuffer ▸ hdataSize)
              refine meetsEvent_of_ne nofun ?_ (by rwa [hbuffer, hclosed] at hu) hchar
              rw [readChar_data hempty hread (hdataSize ▸ hroom)]
              exact htake
            · nofun
          · rw [ReadResult.events, if_neg hroom] at hpending
            · rw [(get_of_drop_eq_cons hpending).1, MeetsEvent, if_pos rfl]
              exact readChar_full hempty hread (hdataSize ▸ hroom)
            · nofun

/-- `read_char` meets the next event. -/
theorem meetsEvent_readChar (h : Started T fd closed k s) :
    MeetsEvent T fd closed k s (T.get k) := by
  cases hdrop : s.buffer.data.drop s.buffer.offset with
  | cons c d =>
      obtain ⟨hevent, hmeets⟩ := meetsEvent_buffered h hdrop
      rwa [hevent]
  | nil => exact meetsEvent_refilled h (h.size ▸ List.drop_eq_nil_iff.mp hdrop)

theorem On.stops (h : On T fd closed k s) (hfull : T.get k = .full) :
    Stops readChar s .outOfBounds := by
  have hmeets := meetsEvent_readChar h.started
  rwa [MeetsEvent, if_pos hfull] at hmeets

theorem On.yields (h : On T fd closed k s) (hfull : T.get k ≠ .full) :
    Yields readChar s fun ch t => ch = (T.get k).returned ∧ On T fd closed (k + 1) t := by
  have hmeets := meetsEvent_readChar h.started
  rw [MeetsEvent, if_neg hfull] at hmeets
  obtain ⟨t, hrun, ht, hchar⟩ := hmeets
  exact ⟨_, t, hrun, rfl, ht, by rw [hchar, h.char, charAt]⟩

theorem On.lastChar_bind {α : Type} {f : ℤ → MapsM α} (h : On T fd closed k s) :
    (lastChar >>= f) s = f (charAt T k) s := by
  change f s.buffer.lastChar s = _
  rw [h.char]

end Ciabatta.Loader
