-- The journal on its way from dpkg.log to the panel: the log is written and rotated, the tail
-- reads it, reports carry the head of the queue and may be lost, late or answered in vain, the
-- agent starts again. What the panel takes is the lines of the log, each once and none lost.
import Kervax.Firsts
import Kervax.PackageEvents
import Kervax.PackageTail

namespace Kervax.Packages

/-! ## The panel on a piece of the journal -/

def Line.useless (e : Line) : Bool := !e.item.isSome

def Line.alike (a b : Line) : Bool := a.t = b.t && a.key = b.key

theorem alike_iff {a b : Line} : a.alike b = true ↔ a.same b := by
  simp [Line.alike, Line.same]

theorem alike_refl (e : Line) : e.alike e = true := by
  simp [Line.alike]

/-- The lines that the panel can use, each once. -/
abbrev distinct : List Line → List Line := Firsts.firsts Line.useless Line.alike

/-- The line adds nothing to those that were taken. -/
abbrev Settled : List Line → Line → Prop := Firsts.Old Line.useless Line.alike

/-- A turn of the loop is a step of `distinct`, where the line is in time or settled. -/
theorem look_add {H : List Line} {s : Scan} (h : Knows (H ++ s.fresh) s.last s.keys)
    (hw : Whole (H ++ s.fresh) s.last s.keys) {now : Int} {e : Line}
    (hfit : e.fits now = e.item.isSome)
    (htime : s.last ≤ e.t ∨ Settled (H ++ s.fresh) e) :
    H ++ (s.look now e).fresh = Firsts.add Line.useless Line.alike (H ++ s.fresh) e := by
  have hseen : s.seen e = true → Settled (H ++ s.fresh) e := by
    intro hs
    rcases htime with hle | hset
    · obtain ⟨ht, hkey⟩ : e.t = s.last ∧ e.key ∈ s.keys := by
        have hcases : e.t < s.last ∨ e.t = s.last ∧ e.key ∈ s.keys := by simpa [Scan.seen] using hs
        exact hcases.resolve_left (by omega)
      obtain ⟨l, hl, hlt, hlk⟩ := h.back _ hkey
      exact .inr ⟨l, hl, alike_iff.mpr ⟨hlt.trans ht.symm, hlk⟩⟩
    · exact hset
  have hnew : ∀ hle : s.last ≤ e.t, (s.last = e.t → e.key ∉ s.keys) → e.item.isSome = true →
      ¬ Settled (H ++ s.fresh) e := by
    intro hle hkey hsome hset
    rcases hset with hskip | ⟨l, hl, hsame⟩
    · simp [Line.useless, hsome] at hskip
    · obtain ⟨ht, hk⟩ := alike_iff.mp hsame
      have hup := h.upper l hl
      exact hkey (by omega) (hk ▸ hw.kept l hl (by omega))
  cases hsome : e.item.isSome with
  | false =>
    have hset : Settled (H ++ s.fresh) e := .inl (by simp [Line.useless, hsome])
    rw [Firsts.add_old hset]
    unfold Scan.look
    rw [hfit, hsome]
    rfl
  | true =>
    rw [hsome] at hfit
    rcases look_cases now s e with ⟨heq, hno | hs⟩ | ⟨heq, hlt⟩ | ⟨heq, hlast, hkey⟩
    · simp [hfit] at hno
    · rw [heq, Firsts.add_old (hseen hs)]
    · rw [heq, Firsts.add_new (hnew (by omega) (by omega) hsome), List.append_assoc]
    · rw [heq, Firsts.add_new (hnew (by omega) (fun _ => hkey) hsome), List.append_assoc]

theorem look_last (now : Int) (s : Scan) (e : Line) : (s.look now e).last ≤ max s.last e.t := by
  rcases look_cases now s e with ⟨heq, -⟩ | ⟨heq, -⟩ | ⟨heq, -, -⟩ <;> simp [heq]

/-- The loop over lines in the order of time, each in time or settled. -/
theorem loop_add {H : List Line} {s : Scan} (h : Knows (H ++ s.fresh) s.last s.keys)
    (hw : Whole (H ++ s.fresh) s.last s.keys) {now : Int} {es : List Line}
    (hfit : ∀ e ∈ es, e.fits now = e.item.isSome) (hsort : es.Pairwise fun a b => a.t ≤ b.t)
    (htime : ∀ e ∈ es, s.last ≤ e.t ∨ Settled (H ++ s.fresh) e) :
    H ++ (es.foldl (Scan.look now) s).fresh =
      es.foldl (Firsts.add Line.useless Line.alike) (H ++ s.fresh) := by
  induction es generalizing s with
  | nil => rfl
  | cons e es ih =>
    obtain ⟨hfirst, hes⟩ := List.pairwise_cons.mp hsort
    have hadd := look_add h hw (hfit e (by simp)) (htime e (by simp))
    rw [List.foldl_cons, List.foldl_cons, ← hadd]
    refine ih (h.look now e) (Whole.look h hw now e) (fun x hx => hfit x (List.mem_cons_of_mem _ hx))
      hes fun x hx => ?_
    rcases htime x (List.mem_cons_of_mem _ hx) with hle | hset
    · have hlast := look_last now s e
      have hex := hfirst x hx
      exact .inl (by omega)
    · right
      rw [hadd]
      exact hset.mono (Firsts.add_start _ _).subset

/-- The lines stand in the order of time, and no second has too many. -/
structure Orderly (H : List Line) : Prop where
  sorted : H.Pairwise fun a b => a.t ≤ b.t
  pos : ∀ l ∈ H, 0 ≤ l.t
  few : Few H

/-- A report with a piece of the journal, whose beginning is no later than what was taken. -/
theorem report_piece {H ls : List Line} (ho : Orderly H) {bs : List Report} {a k : Nat}
    (hbs : bs.flatMap Prod.snd ⊆ H) (htaken : taken .new bs = distinct (H.take k)) (hle : a ≤ k)
    (hls : ls <+: H.drop a) (hlen : ls.length ≤ MAX_EVENTS) {now : Int}
    (hfit : ∀ e ∈ ls, e.fits now = e.item.isSome) :
    taken .new (bs ++ [(now, ls)]) = distinct (H.take (max k (a + ls.length))) := by
  have hk : Knows (taken .new bs) (rowAfter .new bs).evTs (rowAfter .new bs).evKeys := by
    simpa using knows_new.reports bs
  have hw : Whole (taken .new bs) (rowAfter .new bs).evTs (rowAfter .new bs).evKeys := by
    simpa using Whole.reports knows_new whole_new ho.few (List.nil_subset _) hbs
  have hsub : ls ⊆ H := List.Subset.trans hls.subset (List.drop_subset _ _)
  have hsort : ls.Pairwise fun a b => a.t ≤ b.t :=
    ho.sorted.sublist (hls.sublist.trans (List.drop_sublist _ _))
  have hsorted : Clusters.sorted Line.t (ls.take MAX_EVENTS) = ls := by
    rw [List.take_of_length_le hlen]
    exact hsort.insertionSort_eq
  have htime : ∀ e ∈ ls, (rowAfter .new bs).evTs ≤ e.t ∨ Settled (taken .new bs) e := by
    intro e he
    have hmem : e ∈ H.take k ++ H.drop k := by
      rw [List.take_append_drop]
      exact hsub he
    rcases List.mem_append.mp hmem with hin | hout
    · right
      rw [htaken]
      exact Firsts.old_foldl alike_refl hin
    · left
      rcases hk.reached with hzero | ⟨l, hl, ht⟩
      · have := ho.pos e (hsub he)
        omega
      · rw [htaken] at hl
        have hsplit := ho.sorted
        rw [← List.take_append_drop k H, List.pairwise_append] at hsplit
        have := hsplit.2.2 l (Firsts.mem_firsts hl) e hout
        omega
  have hloop := loop_add (H := taken .new bs)
    (s := ⟨(rowAfter .new bs).evTs, (rowAfter .new bs).evKeys, []⟩) (by simpa using hk)
    (by simpa using hw) hfit hsort (by simpa using htime)
  have hscan : (scan (rowAfter .new bs) now ls).fresh = (ls.foldl (Scan.look now)
      ⟨(rowAfter .new bs).evTs, (rowAfter .new bs).evKeys, []⟩).fresh := by
    unfold scan
    rw [hsorted]
  rw [taken_append, taken, taken, List.append_nil, hscan, hloop, List.append_nil, htaken]
  exact Firsts.foldl_piece alike_refl hle hls

/-! ## The log, the agent, the reports on their way and the panel -/

/-- A report that was sent: its lines, and whether the panel has accepted it. -/
abbrev Sent := List Line × Bool

structure World where
  gone : List (List Char)
  log : Log
  tail : Tail
  since : Int
  queue : List Line
  sent : List Sent
  /-- The report whose answer the agent waits for. -/
  waiting : Option Nat
  arrived : List Report

inductive Turn
  | write (s : List Char)
  | rotate (ino : Nat)
  | poll
  | send
  | deliver (i : Nat) (now : Int)
  | ack
  | giveUp
  | restart (since : Int)

variable (stamp : List Char → Option Int)

/-- A turn of one of the parties. The panel may get a report at any time after it was sent, and
more than once; the agent sees an answer only of the report that it waits for. -/
def World.step (w : World) : Turn → World
  | .write s => { w with log := { w.log with text := w.log.text ++ s } }
  | .rotate ino => { w with gone := w.gone ++ [w.log.text], log := ⟨ino, []⟩ }
  | .poll =>
    let r := w.tail.next w.log
    { w with tail := r.1, queue := pkgEvPush w.queue (eventsOf stamp w.since r.2) }
  | .send => { w with sent := w.sent ++ [(pkgEvPeek w.queue, false)], waiting := some w.sent.length }
  | .deliver i now =>
    match w.sent[i]? with
    | some (ls, _) =>
      { w with sent := w.sent.set i (ls, true)
               arrived := if ls = [] then w.arrived else w.arrived ++ [(now, ls)] }
    | none => w
  | .ack =>
    match w.waiting.bind (w.sent[·]?) with
    | some (ls, true) => { w with queue := pkgEvDrop w.queue ls.length, waiting := none }
    | _ => w
  | .giveUp => { w with waiting := none }
  | .restart since => { w with tail := .new, since, queue := [], waiting := none }

/-- The agent starts for the first time, on a server that the panel knows nothing of. -/
def World.start (log : Log) (since : Int) : World :=
  { gone := [], log, tail := .new, since, queue := [], sent := [], waiting := none, arrived := [] }

def World.panel (w : World) : Panel := stored .new w.arrived
def World.taken (w : World) : List Line := Packages.taken .new w.arrived

def parsed (ls : List (List Char)) : List Line := ls.filterMap (parseDpkgLogLine stamp)

/-- The whole lines of the files that were rotated away, and those of this file that the tail
has read and has not. -/
def World.goneLines (w : World) : List (List Char) := w.gone.flatMap (Lines.lines '\n')
def World.behind (w : World) : List (List Char) :=
  if w.tail.ino = w.log.ino then w.tail.behind w.log else []
def World.ahead (w : World) : List (List Char) :=
  if w.tail.ino = w.log.ino then w.tail.ahead w.log else Lines.lines '\n' w.log.text

/-- All the installs that were ever logged. -/
def World.history (w : World) : List Line :=
  parsed stamp (w.goneLines ++ Lines.lines '\n' w.log.text)

/-- The installs that the agent has still to read. -/
def World.unread (w : World) : List Line := parsed stamp w.ahead

/-- What keeps the journal whole at a turn: the log is written in the order of time; a file is
rotated away when the tail has read it; the queue does not run over; a line that an agent
leaves out for its age, or cannot read again after a start, has been taken; and a report comes
while its lines are neither too old nor in the future. -/
def World.Keeps (w : World) : Turn → Prop
  | .write s => Orderly ((w.step stamp (.write s)).history stamp)
  | .rotate ino => ino ≠ 0 ∧ ino ≠ w.tail.ino ∧ w.unread stamp = []
  | .poll =>
    w.queue.length + (eventsOf stamp w.since (w.tail.next w.log).2).length ≤ pkgEvQueueMax ∧
    ∀ e ∈ parsed stamp (w.tail.next w.log).2, e.t < w.since → Settled w.taken e
  | .deliver i now =>
    ∀ e ∈ ((w.sent[i]?).map Prod.fst).getD [], now - KEEP ≤ e.t ∧ e.t ≤ now + 3600
  | .restart _ => ∀ e ∈ parsed stamp w.goneLines, Settled w.taken e
  | _ => True

/-! ## What every turn keeps -/

variable {stamp}

/-- The tail stands in the log, or has not come to it. -/
def World.Placed (w : World) : Prop := w.tail.At w.log ∨ w.tail.ino ≠ w.log.ino

theorem parsed_append (ls ms : List (List Char)) :
    parsed stamp (ls ++ ms) = parsed stamp ls ++ parsed stamp ms :=
  List.filterMap_append

theorem World.here {w : World} (h : w.tail.ino = w.log.ino) :
    w.behind = w.tail.behind w.log ∧ w.ahead = w.tail.ahead w.log :=
  ⟨if_pos h, if_pos h⟩

theorem World.away {w : World} (h : w.tail.ino ≠ w.log.ino) :
    w.behind = [] ∧ w.ahead = Lines.lines '\n' w.log.text :=
  ⟨if_neg h, if_neg h⟩

theorem World.Placed.lines {w : World} (h : w.Placed) :
    Lines.lines '\n' w.log.text = w.behind ++ w.ahead := by
  rcases h with hat | hne
  · rw [(World.here hat.ino).1, (World.here hat.ino).2, hat.lines]
  · rw [(World.away hne).1, (World.away hne).2, List.nil_append]

/-- The installs that the agent has read since the log began. -/
def World.past (stamp : List Char → Option Int) (w : World) : List Line :=
  parsed stamp (w.goneLines ++ w.behind)

theorem World.Placed.history {w : World} (h : w.Placed) :
    w.history stamp = w.past stamp ++ w.unread stamp := by
  unfold World.history World.past World.unread
  rw [h.lines, ← List.append_assoc, parsed_append]

/-- Where the journal stands: up to `p` the agent has done with it, up to `k` the panel has
taken it. -/
structure Marks (stamp : List Char → Option Int) (w : World) (p k : Nat) : Prop where
  le : p ≤ k
  bound : k ≤ (w.history stamp).length
  read : p ≤ (w.past stamp).length
  queue : (w.past stamp).drop p = w.queue
  taken : w.taken = distinct ((w.history stamp).take k)
  sent : ∀ (i : Nat) (ls : List Line) (d : Bool), w.sent[i]? = some (ls, d) → ls.length ≤ pkgEvPerReport ∧
    ∃ a ≤ k, ls <+: (w.history stamp).drop a ∧ (d = true → a + ls.length ≤ k) ∧
      (w.waiting = some i → a = p ∧ ls <+: w.queue)

structure Safe (stamp : List Char → Option Int) (w : World) : Prop where
  real : w.log.ino ≠ 0
  placed : w.Placed
  orderly : Orderly (w.history stamp)
  known : w.arrived.flatMap Prod.snd ⊆ w.history stamp
  recent : ∀ l ∈ w.queue, w.since ≤ l.t
  marks : ∃ p k, Marks stamp w p k

/-- The queue and what is unread are the rest of the journal. -/
theorem Marks.rest {w : World} (hw : w.Placed) {p k : Nat} (h : Marks stamp w p k) :
    (w.history stamp).drop p = w.queue ++ w.unread stamp := by
  rw [hw.history, List.drop_append_of_le_length h.read, h.queue]

/-! ## The log -/

theorem write_history (w : World) (s : List Char) :
    ∃ new, (w.step stamp (.write s)).history stamp = w.history stamp ++ new := by
  obtain ⟨rest, hrest⟩ := Lines.lines_start (c := '\n') w.log.text s
  refine ⟨parsed stamp rest, ?_⟩
  unfold World.history
  have hgone : (w.step stamp (.write s)).goneLines = w.goneLines := rfl
  have htext : (w.step stamp (.write s)).log.text = w.log.text ++ s := rfl
  rw [hgone, htext, ← hrest, ← List.append_assoc, parsed_append]

theorem write_placed {w : World} (h : w.Placed) (s : List Char) :
    (w.step stamp (.write s)).Placed ∧ (w.step stamp (.write s)).behind = w.behind := by
  rcases h with hat | hne
  · obtain ⟨hat', hsame⟩ := hat.write s
    refine ⟨.inl hat', ?_⟩
    rw [(World.here hat.ino).1, (World.here (w := w.step stamp (.write s)) hat.ino).1]
    exact hsame
  · refine ⟨.inr hne, ?_⟩
    rw [(World.away hne).1, (World.away (w := w.step stamp (.write s)) hne).1]

theorem safe_write {w : World} (h : Safe stamp w) {s : List Char}
    (hc : w.Keeps stamp (.write s)) : Safe stamp (w.step stamp (.write s)) := by
  obtain ⟨new, hnew⟩ := @write_history stamp w s
  obtain ⟨hplaced, hbehind⟩ := @write_placed stamp w h.placed s
  have hpast : (w.step stamp (.write s)).past stamp = w.past stamp := by
    unfold World.past
    rw [hbehind]
    rfl
  obtain ⟨p, k, hm⟩ := h.marks
  refine ⟨h.real, hplaced, hc, ?_, h.recent, p, k, ⟨hm.le, ?_, ?_, ?_, ?_, ?_⟩⟩
  · rw [hnew]
    exact List.Subset.trans h.known (List.subset_append_left _ _)
  · have := hm.bound
    rw [hnew, List.length_append]
    omega
  · rw [hpast]
    exact hm.read
  · rw [hpast]
    exact hm.queue
  · rw [hnew, List.take_append_of_le_length hm.bound]
    exact hm.taken
  · intro i ls d hi
    obtain ⟨hlen, a, hak, hls, hd, hwait⟩ := hm.sent i ls d hi
    refine ⟨hlen, a, hak, ?_, hd, hwait⟩
    rw [hnew, List.drop_append_of_le_length (le_trans hak hm.bound)]
    exact hls.trans (List.prefix_append _ _)

theorem safe_rotate {w : World} (h : Safe stamp w) {ino : Nat}
    (hc : w.Keeps stamp (.rotate ino)) : Safe stamp (w.step stamp (.rotate ino)) := by
  obtain ⟨hpos, hne, hunread⟩ := hc
  have hold := @World.Placed.history stamp w h.placed
  rw [hunread, List.append_nil] at hold
  have hgone : (w.step stamp (.rotate ino)).goneLines =
      w.goneLines ++ Lines.lines '\n' w.log.text := by
    simp [World.goneLines, World.step]
  have hhist : (w.step stamp (.rotate ino)).history stamp = w.history stamp := by
    unfold World.history
    rw [hgone]
    simp [World.step]
  have hpast : (w.step stamp (.rotate ino)).past stamp = w.past stamp := by
    rw [← hold]
    unfold World.past World.history
    rw [hgone, (World.away (w := w.step stamp (.rotate ino)) hne.symm).1, List.append_nil]
  obtain ⟨p, k, hm⟩ := h.marks
  exact ⟨hpos, .inr hne.symm, by rw [hhist]; exact h.orderly, by rw [hhist]; exact h.known,
    h.recent, p, k,
    ⟨hm.le, by rw [hhist]; exact hm.bound, by rw [hpast]; exact hm.read, by rw [hpast]; exact hm.queue,
      by rw [hhist]; exact hm.taken, by rw [hhist]; exact hm.sent⟩⟩

/-! ## The agent -/

/-- A read moves whole lines from what is ahead to what is behind. -/
theorem poll_lines {w : World} (h : w.Placed) :
    (w.step stamp .poll).Placed ∧
    (w.step stamp .poll).behind = w.behind ++ (w.tail.next w.log).2 ∧
    w.ahead = (w.tail.next w.log).2 ++ (w.step stamp .poll).ahead := by
  rcases h with hat | hne
  · obtain ⟨hat', hbehind, hahead⟩ := hat.next
    obtain ⟨hb, ha⟩ := World.here (w := w.step stamp .poll) hat'.ino
    rw [hb, ha, (World.here hat.ino).1, (World.here hat.ino).2]
    exact ⟨.inl hat', hbehind, hahead⟩
  · obtain ⟨hat', hbehind, hahead⟩ := next_new hne
    obtain ⟨hb, ha⟩ := World.here (w := w.step stamp .poll) hat'.ino
    rw [hb, ha, (World.away hne).1, (World.away hne).2]
    exact ⟨.inl hat', hbehind, hahead⟩

/-- What is left out of sorted lines for its age stands at their beginning. -/
theorem filter_since {ls : List Line} (hsort : ls.Pairwise fun a b => a.t ≤ b.t) (since : Int) :
    ∃ n ≤ ls.length, ls.filter (since ≤ ·.t) = ls.drop n ∧ ∀ e ∈ ls.take n, e.t < since := by
  induction ls with
  | nil => exact ⟨0, le_refl _, rfl, by simp⟩
  | cons l ls ih =>
    obtain ⟨hl, hls⟩ := List.pairwise_cons.mp hsort
    by_cases hold : since ≤ l.t
    · refine ⟨0, Nat.zero_le _, ?_, by simp⟩
      rw [List.drop_zero, List.filter_eq_self]
      intro e he
      rcases List.mem_cons.mp he with rfl | he
      · simpa using hold
      · have := hl e he
        simp only [decide_eq_true_eq]
        omega
    · obtain ⟨n, hn, heq, hall⟩ := ih hls
      refine ⟨n + 1, by simpa using hn, ?_, ?_⟩
      · rw [List.filter_cons_of_neg (by simpa using hold), heq, List.drop_succ_cons]
      · intro e he
        rw [List.take_succ_cons] at he
        rcases List.mem_cons.mp he with rfl | he
        · omega
        · exact hall e he

theorem pkgEvPush_fits {queue evs : List Line} (h : queue.length + evs.length ≤ pkgEvQueueMax) :
    pkgEvPush queue evs = queue ++ evs := by
  unfold pkgEvPush
  rw [List.length_append, Nat.sub_eq_zero_of_le h, List.drop_zero]

/-- Settled lines may be counted as taken. -/
theorem Marks.raise {w : World} {p k m : Nat} (h : Marks stamp w p k)
    (hm : m ≤ (w.history stamp).length)
    (hset : ∀ e ∈ (w.history stamp).take m, Settled w.taken e) : Marks stamp w p (max k m) where
  le := le_trans h.le (Nat.le_max_left _ _)
  bound := Nat.max_le.mpr ⟨h.bound, hm⟩
  read := h.read
  queue := h.queue
  taken := by
    rw [h.taken] at hset
    rw [h.taken]
    exact (Firsts.firsts_raise hset).symm
  sent i ls d hi := by
    obtain ⟨hlen, a, hak, hls, hd, hwait⟩ := h.sent i ls d hi
    exact ⟨hlen, a, le_trans hak (Nat.le_max_left _ _), hls,
      fun hdone => le_trans (hd hdone) (Nat.le_max_left _ _), hwait⟩

theorem Marks.settled {w : World} {p k : Nat} (h : Marks stamp w p k) {e : Line}
    (he : e ∈ (w.history stamp).take k) : Settled w.taken e := by
  rw [h.taken]
  exact Firsts.old_foldl alike_refl he

theorem safe_poll {w : World} (h : Safe stamp w) (hc : w.Keeps stamp .poll) :
    Safe stamp (w.step stamp .poll) := by
  obtain ⟨hroom, hold⟩ := hc
  obtain ⟨hplaced, hbehind, hahead⟩ := @poll_lines stamp w h.placed
  have hhist : (w.step stamp .poll).history stamp = w.history stamp := rfl
  set read := parsed stamp (w.tail.next w.log).2 with hread
  have hpast : (w.step stamp .poll).past stamp = w.past stamp ++ read := by
    unfold World.past
    rw [hbehind, ← List.append_assoc, parsed_append]
    rfl
  have hunread : w.unread stamp = read ++ (w.step stamp .poll).unread stamp := by
    unfold World.unread
    rw [hahead, parsed_append]
  have hrest : w.history stamp = w.past stamp ++ (read ++ (w.step stamp .poll).unread stamp) := by
    rw [h.placed.history, hunread]
  have hsorted := h.orderly.sorted
  rw [hrest, List.pairwise_append, List.pairwise_append] at hsorted
  obtain ⟨n, hn, hkeep, hleft⟩ := filter_since hsorted.2.1.1 w.since
  have hevents : eventsOf stamp w.since (w.tail.next w.log).2 = read.drop n := hkeep
  have hqueue : (w.step stamp .poll).queue = w.queue ++ read.drop n := by
    simp only [World.step]
    rw [pkgEvPush_fits hroom, hevents]
  obtain ⟨p, k, hm⟩ := h.marks
  refine ⟨h.real, hplaced, h.orderly, h.known, ?_, ?_⟩
  · intro l hl
    rw [hqueue] at hl
    rcases List.mem_append.mp hl with hl | hl
    · exact h.recent l hl
    · rw [← hkeep] at hl
      exact of_decide_eq_true (List.mem_filter.mp hl).2
  · rcases Nat.eq_zero_or_pos n with rfl | hpos
    · -- nothing was left out
      refine ⟨p, k, hm.le, hm.bound, ?_, ?_, hm.taken, ?_⟩
      · rw [hpast, List.length_append]
        exact le_trans hm.read (Nat.le_add_right _ _)
      · rw [hpast, List.drop_append_of_le_length hm.read, hm.queue, hqueue, List.drop_zero]
      · intro i ls d hi
        obtain ⟨hlen, a, hak, hls, hd, hwait⟩ := hm.sent i ls d hi
        refine ⟨hlen, a, hak, hls, hd, fun hw => ⟨(hwait hw).1, (hwait hw).2.trans ?_⟩⟩
        rw [hqueue]
        exact List.prefix_append _ _
    · -- a line of the queue would be older than the first that was left out
      have hempty : w.queue = [] := by
        cases hq : w.queue with
        | nil => rfl
        | cons q qs =>
          obtain ⟨e, he⟩ : ∃ e, e ∈ read.take n := List.exists_mem_of_length_pos (by
            rw [List.length_take]
            omega)
          have hqpast : q ∈ w.past stamp := List.mem_of_mem_drop (by rw [hm.queue, hq]; simp)
          have hle := hsorted.2.2 q hqpast e (List.mem_append_left _ (List.mem_of_mem_take he))
          have hqs := h.recent q (by simp [hq])
          have := hleft e he
          omega
      have hp : p = (w.past stamp).length := by
        have hdrop := hm.queue
        rw [hempty, List.drop_eq_nil_iff] at hdrop
        exact Nat.le_antisymm hm.read hdrop
      have htake : (w.history stamp).take (p + n) = w.past stamp ++ read.take n := by
        rw [hrest, hp, List.take_length_add_append, List.take_append_of_le_length hn]
      have hall : ∀ e ∈ (w.history stamp).take (p + n), Settled w.taken e := by
        intro e he
        rw [htake] at he
        rcases List.mem_append.mp he with he | he
        · apply hm.settled
          have hpre : w.past stamp <+: (w.history stamp).take k := by
            rw [h.placed.history, List.prefix_take_iff]
            exact ⟨List.prefix_append _ _, hp ▸ hm.le⟩
          exact hpre.subset he
        · exact hold e (List.mem_of_mem_take he) (hleft e he)
      have hbound : p + n ≤ (w.history stamp).length := by
        rw [hrest, List.length_append, List.length_append]
        omega
      have hr := hm.raise hbound hall
      refine ⟨p + n, max k (p + n), Nat.le_max_right _ _, hr.bound, ?_, ?_, hr.taken, ?_⟩
      · rw [hpast, List.length_append]
        omega
      · rw [hpast, hp, List.drop_length_add_append, hqueue, hempty, List.nil_append]
      · intro i ls d hi
        obtain ⟨hlen, a, hak, hls, hd, hwait⟩ := hr.sent i ls d hi
        by_cases hw : w.waiting = some i
        · obtain ⟨rfl, hpre⟩ := hwait hw
          obtain rfl : ls = [] := by
            rw [hempty] at hpre
            exact List.prefix_nil.mp hpre
          exact ⟨hlen, a + n, Nat.le_max_right _ _, List.nil_prefix,
            fun _ => by simp, fun _ => ⟨rfl, List.nil_prefix⟩⟩
        · exact ⟨hlen, a, hak, hls, hd, fun hw' => absurd hw' hw⟩

theorem safe_send {w : World} (h : Safe stamp w) : Safe stamp (w.step stamp .send) := by
  obtain ⟨p, k, hm⟩ := h.marks
  refine ⟨h.real, h.placed, h.orderly, h.known, h.recent, p, k,
    hm.le, hm.bound, hm.read, hm.queue, hm.taken, ?_⟩
  intro i ls d hi
  rcases Nat.lt_trichotomy i w.sent.length with hlt | rfl | hgt
  · have hi' : w.sent[i]? = some (ls, d) := by
      rwa [World.step, List.getElem?_append_left hlt] at hi
    obtain ⟨hlen, a, hak, hls, hd, -⟩ := hm.sent i ls d hi'
    refine ⟨hlen, a, hak, hls, hd, fun hw => ?_⟩
    have : w.sent.length = i := by simpa [World.step] using hw
    omega
  · obtain ⟨rfl, rfl⟩ : pkgEvPeek w.queue = ls ∧ false = d := by
      simpa [World.step] using hi
    have hpeek : pkgEvPeek w.queue <+: w.queue := List.take_prefix _ _
    refine ⟨by simp [pkgEvPeek], p, hm.le, ?_, by simp, fun _ => ⟨rfl, hpeek⟩⟩
    have hrest := hm.rest h.placed
    rw [show (w.step stamp .send).history stamp = w.history stamp from rfl, hrest]
    exact hpeek.trans (List.prefix_append _ _)
  · have : i < (w.sent ++ [(pkgEvPeek w.queue, false)]).length :=
      (List.getElem?_eq_some_iff.mp hi).1
    rw [List.length_append, List.length_singleton] at this
    omega

theorem safe_ack {w : World} (h : Safe stamp w) : Safe stamp (w.step stamp .ack) := by
  simp only [World.step]
  split
  · next ls hget =>
    obtain ⟨i, hi, hsent⟩ := Option.bind_eq_some_iff.mp hget
    obtain ⟨p, k, hm⟩ := h.marks
    obtain ⟨-, a, -, -, hd, hwait⟩ := hm.sent i ls true hsent
    obtain ⟨rfl, hpre⟩ := hwait hi
    have hdone := hd rfl
    have hlen := hpre.length_le
    have hlenq : w.queue.length = (w.past stamp).length - a := by rw [← hm.queue, List.length_drop]
    have hread := hm.read
    refine ⟨h.real, h.placed, h.orderly, h.known, ?_, a + ls.length, k,
      hdone, hm.bound, ?_, ?_, hm.taken, ?_⟩
    · intro l hl
      exact h.recent l (List.mem_of_mem_drop hl)
    · show a + ls.length ≤ (w.past stamp).length
      omega
    · show (w.past stamp).drop (a + ls.length) = pkgEvDrop w.queue ls.length
      unfold pkgEvDrop
      rw [← List.drop_drop, hm.queue, Nat.min_eq_left hlen]
    · intro j ms d hj
      obtain ⟨hlen', b, hb, hms, hd', -⟩ := hm.sent j ms d hj
      exact ⟨hlen', b, hb, hms, hd', by simp⟩
  · exact h

theorem safe_giveUp {w : World} (h : Safe stamp w) : Safe stamp (w.step stamp .giveUp) := by
  obtain ⟨p, k, hm⟩ := h.marks
  refine ⟨h.real, h.placed, h.orderly, h.known, h.recent, p, k,
    hm.le, hm.bound, hm.read, hm.queue, hm.taken, ?_⟩
  intro j ms d hj
  obtain ⟨hlen, b, hb, hms, hd, -⟩ := hm.sent j ms d hj
  exact ⟨hlen, b, hb, hms, hd, by simp [World.step]⟩

theorem safe_restart {w : World} (h : Safe stamp w) {since : Int}
    (hc : w.Keeps stamp (.restart since)) : Safe stamp (w.step stamp (.restart since)) := by
  obtain ⟨p, k, hm⟩ := h.marks
  have hnew : Tail.new.ino ≠ w.log.ino := fun he => h.real he.symm
  have hpast : (w.step stamp (.restart since)).past stamp = parsed stamp w.goneLines := by
    unfold World.past
    rw [(World.away (w := w.step stamp (.restart since)) hnew).1, List.append_nil]
    rfl
  have hpre : parsed stamp w.goneLines <+: w.history stamp := by
    unfold World.history
    rw [parsed_append]
    exact List.prefix_append _ _
  have hr := hm.raise hpre.length_le fun e he => by
    rw [← List.prefix_iff_eq_take.mp hpre] at he
    exact hc e he
  refine ⟨h.real, .inr hnew, h.orderly, h.known, by simp [World.step],
    (parsed stamp w.goneLines).length, max k (parsed stamp w.goneLines).length,
    Nat.le_max_right _ _, hr.bound, by rw [hpast], ?_, hr.taken, ?_⟩
  · rw [hpast, List.drop_length]
    rfl
  · intro j ms d hj
    obtain ⟨hlen, b, hb, hms, hd, -⟩ := hr.sent j ms d hj
    exact ⟨hlen, b, hb, hms, hd, by simp [World.step]⟩

/-! ## The panel -/

theorem deliver_eq {w : World} {i : Nat} {now : Int} {ls : List Line} {d : Bool}
    (hi : w.sent[i]? = some (ls, d)) : w.step stamp (.deliver i now) =
      { w with sent := w.sent.set i (ls, true)
               arrived := if ls = [] then w.arrived else w.arrived ++ [(now, ls)] } := by
  simp only [World.step, hi]

/-- A report that the panel gets takes the journal up to its last line. -/
theorem deliver_taken {w : World} (h : Safe stamp w) {p k : Nat} (hm : Marks stamp w p k) {i : Nat}
    {now : Int} {ls : List Line} {d : Bool} (hi : w.sent[i]? = some (ls, d))
    (hc : w.Keeps stamp (.deliver i now)) {a : Nat} (hak : a ≤ k)
    (hls : ls <+: (w.history stamp).drop a) (hlen : ls.length ≤ pkgEvPerReport) :
    (w.step stamp (.deliver i now)).taken =
      distinct ((w.history stamp).take (max k (a + ls.length))) := by
  unfold World.taken
  simp only [World.step, hi]
  split
  · next hnil =>
    subst hnil
    rw [List.length_nil, Nat.add_zero, Nat.max_eq_left hak]
    exact hm.taken
  · have hmax : pkgEvPerReport ≤ MAX_EVENTS := by decide
    refine report_piece h.orderly h.known hm.taken hak hls (le_trans hlen hmax) fun e he => ?_
    have hwin := hc e (by simpa [hi] using he)
    simp [Line.fits, hwin]

theorem deliver_known {w : World} (now : Int) (h : Safe stamp w) {i : Nat} {ls : List Line} {d : Bool}
    (hi : w.sent[i]? = some (ls, d)) (hls : ls ⊆ w.history stamp) :
    (w.step stamp (.deliver i now)).arrived.flatMap Prod.snd ⊆ w.history stamp := by
  simp only [World.step, hi]
  split
  · exact h.known
  · rw [List.flatMap_append, List.append_subset]
    exact ⟨h.known, by simpa using hls⟩

theorem safe_deliver {w : World} (h : Safe stamp w) {i : Nat} {now : Int}
    (hc : w.Keeps stamp (.deliver i now)) : Safe stamp (w.step stamp (.deliver i now)) := by
  cases hi : w.sent[i]? with
  | none => simpa only [World.step, hi] using h
  | some r =>
    obtain ⟨ls, d⟩ := r
    obtain ⟨p, k, hm⟩ := h.marks
    obtain ⟨hlen, a, hak, hls, -, hwait⟩ := hm.sent i ls d hi
    have htaken := deliver_taken h hm hi hc hak hls hlen
    have hsub : ls ⊆ w.history stamp := List.Subset.trans hls.subset (List.drop_subset _ _)
    have hknown := deliver_known now h hi hsub
    have hend : a + ls.length ≤ (w.history stamp).length := by
      have := hls.length_le
      rw [List.length_drop] at this
      have := hm.bound
      omega
    rw [deliver_eq hi] at htaken hknown ⊢
    refine ⟨h.real, h.placed, h.orderly, hknown, h.recent, p, max k (a + ls.length),
      le_trans hm.le (Nat.le_max_left _ _), Nat.max_le.mpr ⟨hm.bound, hend⟩, hm.read, hm.queue,
      htaken, ?_⟩
    intro j ms c hj
    by_cases hij : i = j
    · subst hij
      have hlt : i < w.sent.length := (List.getElem?_eq_some_iff.mp hi).1
      have hset : some (ls, true) = some (ms, c) := (List.getElem?_set_self hlt).symm.trans hj
      obtain ⟨rfl, rfl⟩ : ls = ms ∧ true = c := by simpa using hset
      exact ⟨hlen, a, le_trans hak (Nat.le_max_left _ _), hls, fun _ => Nat.le_max_right _ _, hwait⟩
    · have hj' : w.sent[j]? = some (ms, c) := (List.getElem?_set_ne hij).symm.trans hj
      obtain ⟨hlen', b, hb, hms, hd, hwait'⟩ := hm.sent j ms c hj'
      exact ⟨hlen', b, le_trans hb (Nat.le_max_left _ _), hms,
        fun hdone => le_trans (hd hdone) (Nat.le_max_left _ _), hwait'⟩

/-! ## Every run -/

theorem safe_step {w : World} (h : Safe stamp w) {t : Turn} (hc : w.Keeps stamp t) :
    Safe stamp (w.step stamp t) := by
  cases t with
  | write s => exact safe_write h hc
  | rotate ino => exact safe_rotate h hc
  | poll => exact safe_poll h hc
  | send => exact safe_send h
  | deliver i now => exact safe_deliver h hc
  | ack => exact safe_ack h
  | giveUp => exact safe_giveUp h
  | restart since => exact safe_restart h hc

theorem safe_start {log : Log} (hino : log.ino ≠ 0) (since : Int)
    (ho : Orderly ((World.start log since).history stamp)) : Safe stamp (.start log since) := by
  have hne : Tail.new.ino ≠ log.ino := fun he => hino he.symm
  have hpast : (World.start log since).past stamp = [] := by
    unfold World.past
    rw [(World.away (w := .start log since) hne).1]
    rfl
  refine ⟨hino, .inr hne, ho, by simp [World.start], by simp [World.start], 0, 0,
    le_refl _, Nat.zero_le _, Nat.zero_le _, ?_, rfl, ?_⟩
  · rw [hpast]
    rfl
  · intro i ls d hi
    simp [World.start] at hi

/-- The world after the turns, from the first start of the agent. -/
def World.after (stamp : List Char → Option Int) (log : Log) (since : Int) (ts : List Turn) : World :=
  Runs.run (World.step stamp) (.start log since) ts

/-- In every run that keeps the journal whole, whatever reports and answers are lost, late or
repeated: the panel has taken the lines of some beginning of the log, each once and in order;
every other line is in the queue or still to be read; and when nothing is, the timeline is that
of the whole log. -/
theorem journal_arrives {log : Log} (hino : log.ino ≠ 0) {since : Int}
    (ho : Orderly ((World.start log since).history stamp)) {ts : List Turn}
    (hts : Runs.Along (World.step stamp) (World.Keeps stamp) (.start log since) ts) :
    (∃ p k, p ≤ k ∧
      (World.after stamp log since ts).taken =
        distinct (((World.after stamp log since ts).history stamp).take k) ∧
      ((World.after stamp log since ts).history stamp).drop p =
        (World.after stamp log since ts).queue ++ (World.after stamp log since ts).unread stamp) ∧
    ((World.after stamp log since ts).queue = [] → (World.after stamp log since ts).unread stamp = [] →
      (World.after stamp log since ts).panel.events =
        ((distinct ((World.after stamp log since ts).history stamp)).splitBy soon).map eventOf) := by
  have hsafe : Safe stamp (World.after stamp log since ts) :=
    Runs.inv_run (safe_start hino since ho) (fun _ _ hw hc => safe_step hw hc) hts
  generalize World.after stamp log since ts = w at hsafe
  obtain ⟨p, k, hm⟩ := hsafe.marks
  have hrest := hm.rest hsafe.placed
  refine ⟨⟨p, k, hm.le, hm.taken, hrest⟩, fun hqueue hunread => ?_⟩
  rw [hqueue, hunread, List.append_nil, List.drop_eq_nil_iff] at hrest
  have hall : (w.history stamp).take k = w.history stamp :=
    List.take_of_length_le (le_trans hrest hm.le)
  have htaken := hm.taken
  rw [hall] at htaken
  rw [← htaken]
  exact (timeline_of_lines w.arrived).1

/-- A log with three installs, two of one second, in the zone of UTC. -/
def threeInstalls : Log :=
  ⟨7, ("2026-10-14 12:03:11 upgrade openssl:amd64 1.1 1.2\n" ++
    "2026-10-14 12:03:11 install curl:amd64 <none> 8.1\n" ++
    "2026-10-14 12:04:00 remove nano:amd64 7.0 <none>\n").toList⟩

def noon (s : List Char) : Option Int :=
  if s = "2026-10-14 12:03:11".toList then some 1791979391
  else if s = "2026-10-14 12:04:00".toList then some 1791979440
  else none

theorem threeInstalls_orderly :
    Orderly ((World.start threeInstalls 1791800000).history noon) := by
  have heq : (World.start threeInstalls 1791800000).history noon =
      [⟨1791979391, "upgrade", "openssl", "1.1", "1.2"⟩, ⟨1791979391, "install", "curl", "", "8.1"⟩,
        ⟨1791979440, "remove", "nano", "7.0", ""⟩] := by decide +kernel
  rw [heq]
  exact ⟨by decide, by decide, few_of_length (by decide)⟩

/-- A report whose answer does not come, and the next one with the same lines. -/
def lateTurns : List Turn :=
  [.poll, .send, .giveUp, .send, .deliver 1 1791979500, .ack, .deliver 0 1791979501]

theorem journal_arrives_late :
    (World.after noon threeInstalls 1791800000 lateTurns).panel.events = ((distinct
      ((World.after noon threeInstalls 1791800000 lateTurns).history noon)).splitBy soon).map
        eventOf := by
  refine (journal_arrives (by decide) threeInstalls_orderly ?_).2 ?_ ?_
  · simp only [lateTurns, Runs.Along, World.Keeps]
    decide +kernel
  · decide +kernel
  · decide +kernel

end Kervax.Packages
