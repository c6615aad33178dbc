-- The agent's side of the journal of installs (`main.go`): a line of dpkg.log as an event, the
-- tail that reads the log on from where it stopped, and the queue of events that wait for a
-- report. The log is ASCII text, a character a byte, and a read sees the file as `Stat` did.
import Kervax.Lines
import Kervax.Packages
import Kervax.Runs
import Kervax.SpoolChecks
import Kervax.Fields

namespace Kervax.Packages

/-! ## A line of the log -/

/-- A version of the log; `<none>` is none. -/
def version (s : List Char) : String := if s = "<none>".toList then "" else String.ofList s

/-- `parseDpkgLogLine`; `stamp` reads a local date and time in the zone of the server. -/
def parseDpkgLogLine (stamp : List Char → Option Int) (l : List Char) : Option Line :=
  match Fields.words Spools.isSpace l with
  | date :: time :: a :: p :: o :: n :: _ =>
    if a ∈ ["install".toList, "upgrade".toList, "remove".toList, "purge".toList] then
      (stamp (date ++ ' ' :: time)).map fun t =>
        { t, a := String.ofList a, p := String.ofList (p.takeWhile (· ≠ ':')), o := version o,
          n := version n }
    else none
  | _ => none

/-! ## The tail -/

/-- The log as the file system has it. -/
structure Log where
  ino : Nat
  text : List Char

/-- `dpkgTail`: the file that was read, and how much of it. -/
structure Tail where
  ino : Nat
  off : Nat
deriving DecidableEq

def Tail.new : Tail := ⟨0, 0⟩

/-- The most that one read takes. -/
def readLimit : Nat := 8 * 2 ^ 20

/-- Another file, or one that is shorter than what was read: from its start. -/
def Tail.seek (dt : Tail) (log : Log) : Tail :=
  if log.ino ≠ dt.ino ∨ log.text.length < dt.off then ⟨log.ino, 0⟩ else dt

/-- `dpkgTail.next` up to the lines: only whole ones, the rest is read the next time. -/
def Tail.next (dt : Tail) (log : Log) : Tail × List (List Char) :=
  let dt := dt.seek log
  let b := (log.text.drop dt.off).take readLimit
  match Texts.lastOf '\n' b with
  | none => (dt, [])
  | some e => ({ dt with off := dt.off + (e + 1) }, (b.take e).splitOn '\n')

/-- The events of the lines that are not too old for this start of the agent. -/
def eventsOf (stamp : List Char → Option Int) (since : Int) (ls : List (List Char)) : List Line :=
  (ls.filterMap (parseDpkgLogLine stamp)).filter (since ≤ ·.t)

/-! ## The queue -/

def pkgEvPerReport : Nat := 300
def pkgEvQueueMax : Nat := 3000

/-- `pkgEvPush`: what is too much falls out at the old end. -/
def pkgEvPush (queue evs : List Line) : List Line :=
  (queue ++ evs).drop ((queue ++ evs).length - pkgEvQueueMax)

def pkgEvPeek (queue : List Line) : List Line := queue.take pkgEvPerReport

/-- `pkgEvDrop`. -/
def pkgEvDrop (queue : List Line) (n : Nat) : List Line := queue.drop (min n queue.length)

/-! ## What the tail keeps -/

/-- The tail stands in this file at an end of line. -/
structure Tail.At (dt : Tail) (log : Log) : Prop where
  ino : dt.ino = log.ino
  le : dt.off ≤ log.text.length
  ended : Lines.Ended '\n' (log.text.take dt.off)

/-- The lines that were read of the file, and those that are still to be read. -/
def Tail.behind (dt : Tail) (log : Log) : List (List Char) := Lines.lines '\n' (log.text.take dt.off)
def Tail.ahead (dt : Tail) (log : Log) : List (List Char) := Lines.lines '\n' (log.text.drop dt.off)

theorem Tail.At.seek {dt : Tail} {log : Log} (h : dt.At log) : dt.seek log = dt := by
  unfold Tail.seek
  rw [if_neg]
  have := h.ino
  have := h.le
  omega

theorem Tail.seek_new {dt : Tail} {log : Log} (h : log.ino ≠ dt.ino) :
    dt.seek log = ⟨log.ino, 0⟩ := by
  unfold Tail.seek
  rw [if_pos (.inl h)]

/-- The start of a file is a place to stand. -/
theorem at_start (log : Log) : Tail.At ⟨log.ino, 0⟩ log :=
  ⟨rfl, Nat.zero_le _, .inl (by simp)⟩

theorem Tail.At.lines {dt : Tail} {log : Log} (h : dt.At log) :
    Lines.lines '\n' log.text = dt.behind log ++ dt.ahead log := by
  unfold Tail.behind Tail.ahead
  rw [← Lines.lines_append h.ended, List.take_append_drop]

theorem next_of_seek {dt : Tail} {log : Log} : dt.next log = (dt.seek log).next log := by
  unfold Tail.next
  have hidem : (dt.seek log).seek log = dt.seek log := by
    unfold Tail.seek
    split <;> simp_all
  rw [hidem]

/-- A read goes on over the next whole lines and stands after them. -/
theorem Tail.At.next {dt : Tail} {log : Log} (h : dt.At log) :
    (dt.next log).1.At log ∧
    (dt.next log).1.behind log = dt.behind log ++ (dt.next log).2 ∧
    dt.ahead log = (dt.next log).2 ++ (dt.next log).1.ahead log := by
  unfold Tail.next
  simp only [h.seek]
  set rest := log.text.drop dt.off with hrest
  cases he : Texts.lastOf '\n' (rest.take readLimit) with
  | none => exact ⟨h, by simp, by simp⟩
  | some e =>
    have hlt : e < (rest.take readLimit).length := Texts.lastOf_lt he
    have hfit : e + 1 ≤ readLimit := by
      rw [List.length_take] at hlt
      omega
    have hread : (rest.take readLimit).take (e + 1) = rest.take (e + 1) := by
      rw [List.take_take, Nat.min_eq_left hfit]
    have hended := Lines.ended_upto he
    have hlines := Lines.lines_upto he
    rw [hread] at hended hlines
    have hbehind : log.text.take (dt.off + (e + 1)) = log.text.take dt.off ++ rest.take (e + 1) := by
      rw [List.take_add, hrest]
    have hle := h.le
    refine ⟨⟨h.ino, ?_, ?_⟩, ?_, ?_⟩
    · rw [List.length_take, hrest, List.length_drop] at hlt
      simp only
      omega
    · simp only [hbehind]
      exact h.ended.append hended
    · unfold Tail.behind
      simp only [hbehind]
      rw [Lines.lines_append h.ended, hlines]
    · unfold Tail.ahead
      simp only [← hrest]
      rw [← hlines, ← List.drop_drop, ← hrest, ← Lines.lines_append hended, List.take_append_drop]

/-- A read of a rest that is not too long leaves no whole line. -/
theorem ahead_next {dt : Tail} {log : Log} (h : dt.At log)
    (hshort : log.text.length ≤ dt.off + readLimit) : (dt.next log).1.ahead log = [] := by
  unfold Tail.next
  simp only [h.seek]
  have hall : (log.text.drop dt.off).take readLimit = log.text.drop dt.off := by
    apply List.take_of_length_le
    rw [List.length_drop]
    omega
  rw [hall]
  cases he : Texts.lastOf '\n' (log.text.drop dt.off) with
  | none => exact Lines.lines_of_not_mem (Texts.lastOf_eq_none.mp he)
  | some e =>
    have hrest := (Lines.upto_lastOf he).2
    rw [List.drop_drop] at hrest
    exact Lines.lines_of_not_mem hrest

/-! ## A log that is written, rotated and read -/

/-- What happens to the log. -/
inductive Move
  | write (s : List Char)
  | rotate (ino : Nat)
  | read

/-- The log, the files before it, oldest first, the tail, and the lines that it gave. -/
structure Watch where
  gone : List (List Char)
  log : Log
  tail : Tail
  got : List (List Char)

def Watch.step (w : Watch) : Move → Watch
  | .write s => { w with log := { w.log with text := w.log.text ++ s } }
  | .rotate ino => { w with gone := w.gone ++ [w.log.text], log := ⟨ino, []⟩ }
  | .read => { w with tail := (w.tail.next w.log).1, got := w.got ++ (w.tail.next w.log).2 }

/-- A new file is not the one that the tail read. -/
def Watch.Rotates (w : Watch) : Move → Prop
  | .rotate ino => ino ≠ w.tail.ino
  | _ => True

/-- Of each file the tail gave the first lines. -/
def Parts (got : List (List Char)) (files : List (List Char)) : Prop :=
  ∃ parts : List (List (List Char)), got = parts.flatten ∧
    List.Forall₂ (fun part file => part <+: Lines.lines '\n' file) parts files

theorem Parts.snoc {got part : List (List Char)} {files : List (List Char)} {file : List Char}
    (h : Parts got files) (hp : part <+: Lines.lines '\n' file) :
    Parts (got ++ part) (files ++ [file]) := by
  obtain ⟨parts, rfl, hall⟩ := h
  exact ⟨parts ++ [part], by simp, List.rel_append hall (.cons hp .nil)⟩

/-- A file of which nothing was read. -/
theorem Parts.skip {got : List (List Char)} {files : List (List Char)} (h : Parts got files)
    (file : List Char) : Parts got (files ++ [file]) := by
  simpa using h.snoc (List.nil_prefix : [] <+: Lines.lines '\n' file)

/-- The tail stands in the log, or has not come to this file yet. -/
def Watch.Follows (w : Watch) : Prop :=
  (w.tail.At w.log ∧ ∃ got, w.got = got ++ w.tail.behind w.log ∧ Parts got w.gone) ∨
  (w.tail.ino ≠ w.log.ino ∧ Parts w.got w.gone)

theorem Tail.At.write {dt : Tail} {log : Log} (h : dt.At log) (s : List Char) :
    dt.At { log with text := log.text ++ s } ∧
    dt.behind { log with text := log.text ++ s } = dt.behind log := by
  have hle := h.le
  have htake : (log.text ++ s).take dt.off = log.text.take dt.off := List.take_append_of_le_length hle
  refine ⟨⟨h.ino, ?_, ?_⟩, ?_⟩
  · simp only [List.length_append]
    omega
  · simp only [htake]
    exact h.ended
  · simp only [Tail.behind, htake]

theorem Tail.At.behind_start {dt : Tail} {log : Log} (h : dt.At log) :
    dt.behind log <+: Lines.lines '\n' log.text := by
  rw [h.lines]
  exact List.prefix_append _ _

/-- A read in a file that the tail has not come to yet begins at its start. -/
theorem next_new {dt : Tail} {log : Log} (h : dt.ino ≠ log.ino) :
    (dt.next log).1.At log ∧ (dt.next log).1.behind log = (dt.next log).2 ∧
    Lines.lines '\n' log.text = (dt.next log).2 ++ (dt.next log).1.ahead log := by
  rw [next_of_seek, Tail.seek_new (Ne.symm h)]
  obtain ⟨hat, hbehind, hahead⟩ := (at_start log).next
  exact ⟨hat, by simpa [Tail.behind] using hbehind, by simpa [Tail.ahead] using hahead⟩

theorem follows_step {w : Watch} {m : Move} (h : w.Follows) (hm : w.Rotates m) :
    (w.step m).Follows := by
  cases m with
  | write s =>
    rcases h with ⟨hat, got, hgot, hparts⟩ | ⟨hne, hparts⟩
    · obtain ⟨hat', hsame⟩ := hat.write s
      exact .inl ⟨hat', got, by rw [Watch.step, hsame, hgot], hparts⟩
    · exact .inr ⟨hne, hparts⟩
  | rotate ino =>
    refine .inr ⟨Ne.symm hm, ?_⟩
    rcases h with ⟨hat, got, hgot, hparts⟩ | ⟨-, hparts⟩
    · unfold Watch.step
      rw [hgot]
      exact hparts.snoc hat.behind_start
    · exact hparts.skip _
  | read =>
    left
    rcases h with ⟨hat, got, hgot, hparts⟩ | ⟨hne, hparts⟩
    · obtain ⟨hat', hbehind, -⟩ := hat.next
      refine ⟨hat', got, ?_, hparts⟩
      simp only [Watch.step, hbehind, hgot, List.append_assoc]
    · obtain ⟨hat', hbehind, -⟩ := next_new hne
      exact ⟨hat', w.got, by simp only [Watch.step, hbehind], hparts⟩

/-- The log with its tail after the moves; the agent starts with nothing read. -/
def Watch.after (log : Log) (ms : List Move) : Watch := Runs.run Watch.step ⟨[], log, .new, []⟩ ms

/-- However the log is written and whenever it is read and rotated, the tail gives of each file
its first whole lines, once and in order; and a read with no more than the limit before it
gives all the lines of the log that it has not given. -/
theorem lines_read_once {log : Log} (hino : log.ino ≠ 0) {ms : List Move}
    (hms : Runs.Along Watch.step Watch.Rotates ⟨[], log, .new, []⟩ ms) :
    Parts (Watch.after log ms).got ((Watch.after log ms).gone ++ [(Watch.after log ms).log.text]) ∧
    ((Watch.after log ms).log.text.length ≤
        ((Watch.after log ms).tail.seek (Watch.after log ms).log).off + readLimit →
      ∃ got, Parts got (Watch.after log ms).gone ∧
        (Watch.after log (ms ++ [.read])).got =
          got ++ Lines.lines '\n' (Watch.after log ms).log.text) := by
  have hstart : Watch.Follows ⟨[], log, .new, []⟩ := .inr ⟨Ne.symm hino, [], rfl, .nil⟩
  have hfol : (Watch.after log ms).Follows := Runs.inv_run hstart (fun _ _ => follows_step) hms
  have hnext : Watch.after log (ms ++ [.read]) = (Watch.after log ms).step .read :=
    Runs.run_snoc _ _ _ _
  rw [hnext]
  generalize Watch.after log ms = w at hfol
  constructor
  · rcases hfol with ⟨hat, got, hgot, hparts⟩ | ⟨-, hparts⟩
    · rw [hgot]
      exact hparts.snoc hat.behind_start
    · exact hparts.skip _
  · intro hshort
    rcases hfol with ⟨hat, got, hgot, hparts⟩ | ⟨hne, hparts⟩
    · rw [hat.seek] at hshort
      obtain ⟨-, -, hahead⟩ := hat.next
      rw [ahead_next hat hshort, List.append_nil] at hahead
      refine ⟨got, hparts, ?_⟩
      simp only [Watch.step, hgot, hat.lines, hahead, List.append_assoc]
    · rw [Tail.seek_new (Ne.symm hne)] at hshort
      obtain ⟨-, -, hall⟩ := next_new hne
      have hempty : (w.tail.next w.log).1.ahead w.log = [] := by
        rw [next_of_seek, Tail.seek_new (Ne.symm hne)]
        exact ahead_next (at_start w.log) hshort
      refine ⟨w.got, hparts, ?_⟩
      simp only [Watch.step, hall, hempty, List.append_nil]

theorem lines_read_once_rotated :
    Parts (Watch.after ⟨7, "a\nb".toList⟩ [.read, .rotate 8, .write "c\n".toList, .read]).got
      ((Watch.after ⟨7, "a\nb".toList⟩ [.read, .rotate 8, .write "c\n".toList, .read]).gone ++
        [(Watch.after ⟨7, "a\nb".toList⟩ [.read, .rotate 8, .write "c\n".toList, .read]).log.text]) := by
  refine (lines_read_once (by decide) ?_).1
  simp only [Runs.Along, Watch.Rotates]
  decide +kernel

end Kervax.Packages
