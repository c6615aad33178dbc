-- The timeline of a server (`timeline.py`): the events between two snapshots of the reports,
-- what waits for a second report, and what is remembered so as not to be said again. Times are
-- in microseconds; the order of two ISO texts of one zone is that of their times.
import Kervax.Dict
import Mathlib.Data.List.Basic

namespace Kervax.Timeline

/-! ## Snapshots -/

def SECOND : Int := 1000000
def CREATED_MAX : Int := 15 * 60 * SECOND
def FLAP_MAX : Nat := 4
def FLAP_WINDOW : Int := 24 * 3600 * SECOND

/-- A dictionary: no key twice. -/
structure Book (ν : Type) where
  entries : List (String × ν)
  nodup : (Dict.keys entries).Nodup

def Book.keys {ν : Type} (b : Book ν) : List String := Dict.keys b.entries

def Book.get {ν : Type} (b : Book ν) (k : String) : Option ν := b.entries.lookup k

/-- The entries with some keys and values. -/
def Book.filter {ν : Type} (b : Book ν) (f : String → ν → Bool) : Book ν where
  entries := b.entries.filter fun p => f p.1 p.2
  nodup := b.nodup.sublist (List.Sublist.map _ List.filter_sublist)

/-- New values under the old keys. -/
def Book.values {ν : Type} (b : Book ν) (f : String → ν → ν) : Book ν where
  entries := b.entries.map fun p => (p.1, f p.1 p.2)
  nodup := by
    have hkeys : Dict.keys (b.entries.map fun p => (p.1, f p.1 p.2)) = Dict.keys b.entries := by
      simp [Dict.keys, Function.comp_def]
    rw [hkeys]
    exact b.nodup

def Book.put {ν : Type} (b : Book ν) (k : String) (v : ν) : Book ν where
  entries := Dict.put b.entries k v
  nodup := Dict.nodup_put b.nodup k v

/-- A container: its image, how long it runs, its restarts and its state. -/
structure Cont where
  i : String
  u : Option Int
  r : Int
  s : String

structure Snap where
  ts : Int
  c : Option (Book Cont)
  p : Option (Book String)
  boot : Option Int
  bw : String
  ou : Bool
  k : String
  kn : String
  os : String
  dk : String
  ag : String
  upd : Option Int
  updTs : Int
  rbTs : Int
  rbPkgs : List String
  ua : Int
  pkh : Bool

inductive Kind
  | new | gone | image | crash | restart | stop | start
  | opened | closed | flap
  | reboot | kernel | os | docker | agent | kernelNew | packages | rebootReq
deriving DecidableEq

def Kind.cat : Kind → String
  | .new => "deploy"
  | .gone => "deploy"
  | .image => "deploy"
  | .restart => "deploy"
  | .crash => "crash"
  | .stop => "state"
  | .start => "state"
  | .opened => "ports"
  | .closed => "ports"
  | .flap => "ports"
  | .reboot => "system"
  | .kernel => "system"
  | .os => "system"
  | .docker => "system"
  | .agent => "system"
  | .kernelNew => "system"
  | .packages => "system"
  | .rebootReq => "system"

/-- `_ev`; the count is that of crashes. -/
structure Ev where
  ts : Int
  kind : Kind
  obj : String
  text : String
  n : Int

def ev (ts : Int) (kind : Kind) (obj text : String) : Ev := { ts, kind, obj, text, n := 1 }

/-! ## What is remembered between reports -/

/-- What has come or gone in one snapshot, and since when. -/
structure Cand where
  plus : List (String × Int)
  minus : List (String × Int)

/-- What was said since the last reboot. -/
structure Said where
  boot : Option Int
  kn : String
  rb : Int

structure Pend where
  c : Cand
  cstop : List (String × Int)
  p : Cand
  pflap : Book (List Int)
  said : Option Said

def Pend.empty : Pend := ⟨⟨[], []⟩, [], ⟨[], []⟩, ⟨[], List.nodup_nil⟩, none⟩

/-! ## Confirmed by a second snapshot -/

/-- What `_confirm` gives back, and the candidates that it leaves. -/
structure Confirmed (ν : Type) where
  added : List (String × Int)
  gone : List (String × Int)
  out : Book ν
  cand : Cand

def fresh {ν : Type} (prev cur : Book ν) : Book ν := cur.filter fun k _ => k ∉ prev.keys

def lost {ν : Type} (prev cur : Book ν) : Book ν := prev.filter fun k _ => k ∉ cur.keys

/-- Those of the keys that are candidates, with the time since when. -/
def known (d : List (String × Int)) (ks : List String) : List (String × Int) :=
  ks.filterMap fun k => (d.lookup k).map fun t => (k, t)

/-- The others, candidates from now on. -/
def unknown (d : List (String × Int)) (ks : List String) (ts : Int) : List (String × Int) :=
  (ks.filter fun k => (d.lookup k).isNone).map fun k => (k, ts)

theorem keys_filter_sub {ν : Type} (b : Book ν) (f : String → ν → Bool) {k : String}
    (h : k ∈ (b.filter f).keys) : k ∈ b.keys := by
  obtain ⟨p, hp, rfl⟩ := List.mem_map.mp h
  exact List.mem_map_of_mem (List.mem_filter.mp hp).1

/-- What stays of the one, and what has come in the other. -/
def joined {ν : Type} (prev cur : Book ν) (stay come : String → Bool) : Book ν where
  entries := (prev.filter fun k _ => stay k).entries ++
    ((fresh prev cur).filter fun k _ => come k).entries
  nodup := by
    unfold Dict.keys
    rw [List.map_append, List.nodup_append]
    refine ⟨(prev.filter _).nodup, ((fresh prev cur).filter _).nodup, ?_⟩
    intro k hk j hj hkj
    subst hkj
    have hin : k ∈ prev.keys := keys_filter_sub prev (fun k _ => stay k) hk
    have hout : k ∈ (fresh prev cur).keys := keys_filter_sub _ (fun k _ => come k) hj
    obtain ⟨p, hp, rfl⟩ := List.mem_map.mp hout
    have hnot := (List.mem_filter.mp hp).2
    simp [hin] at hnot

/-- `_confirm`. -/
def confirm {ν : Type} (prev cur : Book ν) (pend : Cand) (ts : Int) : Confirmed ν where
  added := known pend.plus (fresh prev cur).keys
  gone := known pend.minus (lost prev cur).keys
  out := joined prev cur (fun k => k ∈ cur.keys || (pend.minus.lookup k).isNone)
    fun k => (pend.plus.lookup k).isSome
  cand :=
    { plus := unknown pend.plus (fresh prev cur).keys ts
      minus := unknown pend.minus (lost prev cur).keys ts }

/-! ## Containers -/

/-- `_older`. -/
def older (a b gap : Int) : Bool := gap < b - a

/-- What one container in both snapshots gives: its events, its entry in the snapshot, and
since when it waits to be called stopped. -/
structure ContOut where
  evs : List Ev
  conf : Cont
  stopping : Option Int

def restarted (o n : Cont) : Bool :=
  match o.u, n.u with
  | some a, some b => b + 60 < a
  | _, _ => false

def newImage (o n : Cont) : Bool := o.i ≠ "" && n.i ≠ "" && o.i ≠ n.i

def changeEvs (ts : Int) (name : String) (o n : Cont) : List Ev :=
  if newImage o n then [ev ts .image name (name ++ ": образ " ++ o.i ++ " -> " ++ n.i)]
  else if o.r < n.r then
    [{ ev ts .crash name (name ++ ": упал и перезапущен") with n := n.r - o.r }]
  else if restarted o n then [ev ts .restart name (name ++ ": перезапущен или пересоздан")]
  else []

def contStep (ts : Int) (name : String) (o n : Cont) (since : Option Int) : ContOut :=
  let evs := changeEvs ts name o n
  if o.s = "running" ∧ n.s ≠ "running" ∧ n.s ≠ "restarting" then
    -- a stop is confirmed by a second report: until then the snapshot is the old one
    let wait : ContOut :=
      { evs
        conf := { n with s := o.s, u := if newImage o n then none else o.u }
        stopping := some (since.getD ts) }
    match since with
    | none => wait
    | some a =>
      if n.s = "created" ∧ ¬ older a ts CREATED_MAX then wait
      else
        { evs := evs ++ [ev a .stop name (name ++ ": остановлен (" ++
            (if n.s = "" then "?" else n.s) ++ ")")]
          conf := n
          stopping := none }
  else if o.s ≠ "running" ∧ n.s = "running" ∧ o.s ≠ "restarting" ∧ restarted o n = false then
    { evs := evs ++ [ev ts .start name (name ++ ": запущен")], conf := n, stopping := none }
  else { evs, conf := n, stopping := none }

/-- The containers of both snapshots, each with its step. -/
def contSteps (prev cur : Book Cont) (stopping : List (String × Int)) (ts : Int) :
    List (String × ContOut) :=
  prev.entries.filterMap fun p => (cur.get p.1).map fun n =>
    (p.1, contStep ts p.1 p.2 n (stopping.lookup p.1))

def image (cur : Book Cont) (name : String) : String := ((cur.get name).map Cont.i).getD ""

/-- The branch of the containers. -/
def diffConts (prev cur : Book Cont) (pend : Pend) (ts : Int) : List Ev × Book Cont × Pend :=
  let r := confirm prev cur pend.c ts
  let steps := contSteps prev cur pend.cstop ts
  let evs :=
    r.added.map (fun a => ev a.2 .new a.1 ("новый контейнер " ++ a.1 ++ " (" ++ image cur a.1 ++ ")")) ++
    r.gone.map (fun a => ev a.2 .gone a.1 ("контейнер " ++ a.1 ++ " удален")) ++
    steps.flatMap fun p => p.2.evs
  let conf := r.out.values fun k v => ((steps.lookup k).map ContOut.conf).getD v
  let cstop := cur.keys.filterMap fun k =>
    match steps.lookup k with
    | some out => out.stopping.map fun t => (k, t)
    | none => (pend.cstop.lookup k).map fun t => (k, t)
  (evs, conf, { pend with c := r.cand, cstop })

/-! ## Ports -/

/-- Digits only, and at least 1024. -/
def highPort (port : List Char) : Bool :=
  !port.isEmpty && port.all Char.isDigit && 1024 ≤ (String.ofList port).toNat?.getD 0

/-- `_service`: a socket of UDP on a high port without a known process is a client's session. -/
def service (key proc : String) : Bool :=
  let port := key.toList.takeWhile (· ≠ '/')
  let proto := (key.toList.dropWhile (· ≠ '/')).drop 1
  !("udp".toList.isPrefixOf proto && highPort port && proc = "")

def flapText (key : String) : String :=
  "порт " ++ key ++ " то открывается, то закрывается: дальше в хронологию не пишется, " ++
    "пока не утихнет на сутки"

def portEv (at_ : Int) (opened : Bool) (key proc : String) : Ev :=
  ev at_ (if opened then .opened else .closed) key
    ((if opened then "открыт" else "закрыт") ++ " порт " ++ key ++
      if proc = "" then "" else " (" ++ proc ++ ")")

/-- One change of a port: its times of the last day, and what is said of it. -/
def portStep (src : Book String) (opened : Bool) (acc : Book (List Int) × List Ev)
    (change : String × Int) : Book (List Int) × List Ev :=
  let hist := (acc.1.get change.1).getD [] ++ [change.2]
  (acc.1.put change.1 hist, acc.2 ++
    if hist.length = FLAP_MAX then [ev change.2 .flap change.1 (flapText change.1)]
    else if hist.length < FLAP_MAX then
      [portEv change.2 opened change.1 ((src.get change.1).getD "")]
    else [])

/-- The branch of the ports. -/
def diffPorts (prev cur : Book String) (pend : Pend) (ts : Int) :
    List Ev × Book String × Book String × Pend :=
  let pp := prev.filter service
  let cp := cur.filter service
  let r := confirm pp cp pend.p ts
  let flap := pend.pflap.values fun _ v => v.filter fun t => ts - FLAP_WINDOW ≤ t
  let acc := r.gone.foldl (portStep pp false) (r.added.foldl (portStep cp true) (flap, []))
  (acc.2, r.out, cp, { pend with p := r.cand, pflap := acc.1.filter fun _ v => v ≠ [] })

/-! ## The system -/

/-- `_iso` of a time in seconds; zero is none. -/
def iso (ts : Int) : Option Int := if 0 < ts then some (ts * SECOND) else none

def sysEv (ts : Int) (kind : Kind) (text : String) : Ev := ev ts kind "" text

def rebootEvs (prev cur : Snap) : List Ev :=
  match prev.boot, cur.boot with
  | some a, some b =>
    if a ≠ b then
      [sysEv b .reboot (if cur.bw = "" then "перезагрузка" else "плановая перезагрузка: " ++ cur.bw)]
    else []
  | _, _ => []

def versionEv (ts : Int) (kind : Kind) (label a b : String) : List Ev :=
  if a ≠ "" ∧ b ≠ "" ∧ a ≠ b then [sysEv ts kind (label ++ ": " ++ a ++ " -> " ++ b)] else []

def versionEvs (prev cur : Snap) : List Ev :=
  versionEv cur.ts .kernel "ядро" prev.k cur.k ++ versionEv cur.ts .os "ОС" prev.os cur.os ++
    versionEv cur.ts .docker "Docker" prev.dk cur.dk ++
    versionEv cur.ts .agent "агент Kervax" prev.ag cur.ag

/-- What was said up to this report: nothing yet after a reboot. -/
def saidBefore (prev cur : Snap) (said : Option Said) : Said :=
  let said := said.getD { boot := prev.boot, kn := prev.kn, rb := prev.rbTs }
  if cur.boot.isSome ∧ cur.boot ≠ said.boot then { boot := cur.boot, kn := "", rb := 0 } else said

def kernelNewDue (cur : Snap) (said : Said) : Bool := cur.ou && cur.kn ≠ "" && cur.kn ≠ said.kn

def rebootDue (cur : Snap) (said : Said) : Bool := cur.ou && cur.rbTs ≠ 0 && said.rb = 0

def saidAfter (cur : Snap) (said : Said) : Said :=
  { boot := said.boot
    kn := if kernelNewDue cur said then cur.kn else said.kn
    rb := if rebootDue cur said then cur.rbTs else said.rb }

def packagesEvs (prev cur : Snap) : List Ev :=
  match prev.upd, cur.upd with
  | some a, some b =>
    if 0 ≤ b ∧ b < a ∧ cur.updTs ≠ prev.updTs ∧ cur.pkh = false then
      let at_ := if prev.updTs < cur.ua ∧ cur.ua ≤ cur.updTs then cur.ua else cur.updTs
      [sysEv ((iso at_).getD cur.ts) .packages
        ("обновлены пакеты: ждали обновления " ++ toString a ++ ", осталось " ++ toString b)]
    else []
  | _, _ => []

def kernelText (kn : String) : String :=
  "установлено ядро " ++ kn ++ ", заработает после перезагрузки"

def kernelNewEv (cur : Snap) : Ev :=
  sysEv ((iso cur.updTs).getD cur.ts) .kernelNew (kernelText cur.kn)

def rebootReqEv (cur : Snap) : Ev :=
  sysEv ((iso cur.rbTs).getD cur.ts) .rebootReq ("после обновления нужна перезагрузка" ++
    if cur.rbPkgs = [] then "" else ": " ++ String.intercalate ", " cur.rbPkgs)

def saidEvs (prev cur : Snap) (said : Said) : List Ev :=
  (if kernelNewDue cur said then [kernelNewEv cur] else []) ++ packagesEvs prev cur ++
    if rebootDue cur said then [rebootReqEv cur] else []

/-! ## Two snapshots -/

/-- Where a report has no updates, what the last one had of them is kept. -/
def heldUpdates (prev cur : Snap) : Snap :=
  if cur.ou then cur
  else
    { cur with
      k := prev.k
      kn := prev.kn
      upd := prev.upd
      updTs := prev.updTs
      rbTs := prev.rbTs
      rbPkgs := prev.rbPkgs
      ua := prev.ua
      pkh := prev.pkh }

/-- The containers of two reports: nothing is compared where one has none. -/
def diffC (prev cur : Snap) (pend : Pend) : List Ev × Option (Book Cont) × Pend :=
  match prev.c, cur.c with
  | some pc, some cc =>
    let r := diffConts pc cc pend cur.ts
    (r.1, some r.2.1, r.2.2)
  | some pc, none => ([], some pc, pend)
  | none, cc => ([], cc, pend)

def diffP (prev cur : Snap) (pend : Pend) : List Ev × Option (Book String) × Pend :=
  match prev.p, cur.p with
  | some pp, some cp =>
    let r := diffPorts pp cp pend cur.ts
    (r.1, some r.2.1, r.2.2.2)
  | some pp, none => ([], some pp, pend)
  | none, cp => ([], cp, pend)

/-- `diff`. The first snapshot is the point to start from. -/
def diff (prev : Option Snap) (cur : Snap) (pend : Pend) : List Ev × Snap × Pend :=
  match prev with
  | none => ([], cur, pend)
  | some prev =>
    let cur := heldUpdates prev cur
    let conts := diffC prev cur pend
    let ports := diffP prev cur conts.2.2
    let said := saidBefore prev cur ports.2.2.said
    (conts.1 ++ ports.1 ++ rebootEvs prev cur ++ versionEvs prev cur ++ saidEvs prev cur said,
      { cur with c := conts.2.1, p := ports.2.1 }, { ports.2.2 with said := some (saidAfter cur said) })

/-! ## The reports of a server -/

structure Track where
  snap : Option Snap
  pend : Pend
  log : List Ev

def Track.empty : Track := ⟨none, .empty, []⟩

/-- `track`, for one server: a report that was seen before is left out. -/
def track (t : Track) (cur : Snap) : Track :=
  if t.snap.map Snap.ts = some cur.ts then t
  else
    let r := diff t.snap cur t.pend
    { snap := some r.2.1, pend := r.2.2, log := t.log ++ r.1 }

end Kervax.Timeline
