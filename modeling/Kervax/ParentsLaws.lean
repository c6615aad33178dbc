-- The signs that a parent rests on, that they are unambiguous, and that servers
-- behind servers never close a cycle.
import Kervax.Parents
import Mathlib.Data.List.Dedup

namespace Kervax.Parents

open Runs Chains

/-! ## Sets of one -/

theorem only_eq_some {l : List Nat} {a : Nat} : only l = some a ↔ l = [a] := by
  unfold only
  split <;> simp_all

theorem dedup_eq_singleton {l : List Nat} {a : Nat} : l.dedup = [a] ↔ ∀ x, x ∈ l ↔ x = a := by
  constructor
  · intro h x
    rw [← List.mem_dedup, h, List.mem_singleton]
  · intro h
    apply List.perm_singleton.mp
    apply (List.perm_ext_iff_of_nodup (List.nodup_dedup l) (List.nodup_singleton a)).mpr
    intro x
    rw [List.mem_dedup, h, List.mem_singleton]

/-- The server `a`, and no other, meets `p`. -/
def Sole (servers : List Server) (p : Server → Bool) (a : Nat) : Prop :=
  (∃ s ∈ servers, p s = true ∧ s.id = a) ∧ ∀ s ∈ servers, p s = true → s.id = a

theorem Sole.unique {servers : List Server} {p : Server → Bool} {a b : Nat}
    (ha : Sole servers p a) (hb : Sole servers p b) : a = b := by
  obtain ⟨s, hs, hp, rfl⟩ := ha.1
  exact hb.2 s hs hp

theorem idsWhere_eq {servers : List Server} {p : Server → Bool} {a : Nat} :
    idsWhere servers p = [a] ↔ Sole servers p a := by
  unfold idsWhere Sole
  rw [dedup_eq_singleton]
  simp only [List.mem_map, List.mem_filter]
  constructor
  · intro h
    obtain ⟨s, ⟨hs, hp⟩, hid⟩ := (h a).mpr rfl
    exact ⟨⟨s, hs, hp, hid⟩, fun s hs hp => (h s.id).mp ⟨s, ⟨hs, hp⟩, rfl⟩⟩
  · rintro ⟨⟨s, hs, hp, rfl⟩, hall⟩ x
    constructor
    · rintro ⟨t, ⟨ht, hpt⟩, rfl⟩
      exact hall t ht hpt
    · rintro rfl
      exact ⟨s, ⟨hs, hp⟩, rfl⟩

/-! ## The signs -/

section Signs

variable (py : Library) (servers : List Server) (resolved : List Char → List (List Char))

/-- The monitor is checked from inside the server. -/
def Inside (c : Check) (a : Nat) : Prop :=
  c.probeLocal = true ∧ c.probeServerId = some a ∧ a ∈ servers.map Server.id

/-- All addresses the domain resolves to belong to the one server. -/
def DnsOf (host : List Char) (a : Nat) : Prop :=
  resolved host ≠ [] ∧ ∀ ip ∈ resolved host, Sole servers (fun s => s.owns ip) a

/-- Exactly this server serves the domain. -/
def SiteOf (host : List Char) (a : Nat) : Prop := Sole servers (fun s => s.serves py host) a

/-- Exactly this server owns the address. -/
def AddressOf (host : List Char) (a : Nat) : Prop := Sole servers (fun s => s.owns host) a

/-- The sign that binds the monitor to the server, under the name that `parents_of` gives
it. The inside comes first, for a domain the addresses come before the sites. -/
def Decides (c : Check) (a : Nat) : Why → Prop
  | .local => Inside servers c a
  | .ip =>
    (∀ b, ¬ Inside servers c b) ∧ targetHost py c ≠ [] ∧
      (isIp (targetHost py c) = true ∧ AddressOf servers (targetHost py c) a ∨
        isIp (targetHost py c) = false ∧ DnsOf servers resolved (targetHost py c) a ∧
          ¬ SiteOf py servers (targetHost py c) a)
  | .site =>
    (∀ b, ¬ Inside servers c b) ∧ targetHost py c ≠ [] ∧ isIp (targetHost py c) = false ∧
      SiteOf py servers (targetHost py c) a ∧
      ∀ b, DnsOf servers resolved (targetHost py c) b → b = a
  | .manual => False

/-- The server shares the sign under that name. -/
def Shares (c : Check) (s : Server) : Why → Prop
  | .ip =>
    isIp (targetHost py c) = true ∧ s.owns (targetHost py c) = true ∨
      isIp (targetHost py c) = false ∧ ∃ ip ∈ resolved (targetHost py c), s.owns ip = true
  | .site => s.serves py (targetHost py c) = true
  | _ => False

variable {py servers resolved}

theorem index_has {a : Nat} :
    (index py servers resolved).has a = true ↔ a ∈ servers.map Server.id := by
  simp [Index.has, index]

theorem inside_some {c : Check} {a : Nat} :
    (c.probeServerId.filter fun pid => c.probeLocal && (index py servers resolved).has pid) =
      some a ↔ Inside servers c a := by
  rw [Option.filter_eq_some_iff, Bool.and_eq_true, index_has]
  unfold Inside
  tauto

theorem inside_none {c : Check} :
    (c.probeServerId.filter fun pid => c.probeLocal && (index py servers resolved).has pid) =
      none ↔ ∀ a, ¬ Inside servers c a := by
  rw [Option.eq_none_iff_forall_ne_some]
  simp only [ne_eq, inside_some]

theorem ips_eq {ip : List Char} {a : Nat} :
    (index py servers resolved).ips ip = [a] ↔ Sole servers (fun s => s.owns ip) a :=
  idsWhere_eq

theorem domains_eq {host : List Char} {a : Nat} :
    (index py servers resolved).domains host = [a] ↔ SiteOf py servers host a :=
  idsWhere_eq

theorem dnsOwner_eq {host : List Char} {a : Nat} :
    dnsOwner host (index py servers resolved) = some a ↔ DnsOf servers resolved host a := by
  unfold dnsOwner DnsOf
  have hres : (index py servers resolved).resolved host = resolved host := rfl
  rw [hres]
  by_cases hnil : resolved host = []
  · simp [hnil]
  by_cases hmany : ∃ ip ∈ resolved host, only ((index py servers resolved).ips ip) = none
  · rw [if_pos (.inr hmany)]
    obtain ⟨ip, hip, hnone⟩ := hmany
    have : ¬ Sole servers (fun s => s.owns ip) a := by
      intro hsole
      have : (index py servers resolved).ips ip = [a] := ips_eq.mpr hsole
      rw [← only_eq_some, hnone] at this
      cases this
    exact iff_of_false (by simp) fun h => this (h.2 ip hip)
  · rw [if_neg (not_or.mpr ⟨hnil, hmany⟩), only_eq_some, dedup_eq_singleton]
    push Not at hmany
    simp only [List.mem_flatMap]
    constructor
    · intro h
      refine ⟨hnil, fun ip hip => ?_⟩
      obtain ⟨b, hb⟩ := Option.ne_none_iff_exists'.mp (hmany ip hip)
      rw [only_eq_some] at hb
      have : b = a := (h b).mp ⟨ip, hip, by simp [hb]⟩
      exact this ▸ ips_eq.mp hb
    · rintro ⟨-, hall⟩ x
      have ids : ∀ ip ∈ resolved host, (index py servers resolved).ips ip = [a] :=
        fun ip hip => ips_eq.mpr (hall ip hip)
      constructor
      · rintro ⟨ip, hip, hx⟩
        simpa [ids ip hip] using hx
      · rintro rfl
        obtain ⟨ip, hip⟩ := List.exists_mem_of_ne_nil _ hnil
        exact ⟨ip, hip, by simp [ids ip hip]⟩

theorem DnsOf.unique {host : List Char} {a b : Nat} (ha : DnsOf servers resolved host a)
    (hb : DnsOf servers resolved host b) : a = b := by
  obtain ⟨ip, hip⟩ := List.exists_mem_of_ne_nil _ ha.1
  exact (ha.2 ip hip).unique (hb.2 ip hip)

theorem mem_only {l : List Nat} {a : Nat} {w v : Why} :
    (a, w) ∈ (only l).toList.map (fun pid => (pid, v)) ↔ l = [a] ∧ w = v := by
  simp only [List.mem_map, Option.mem_toList, only_eq_some, Prod.mk.injEq]
  constructor
  · rintro ⟨b, hb, rfl, rfl⟩
    exact ⟨hb, rfl⟩
  · rintro ⟨hl, rfl⟩
    exact ⟨a, hl, rfl, rfl⟩

/-- From inside a server nothing else decides. -/
theorem decides_inside {c : Check} {pid : Nat} (h : Inside servers c pid) {a : Nat} {w : Why} :
    Decides py servers resolved c a w ↔ a = pid ∧ w = .local := by
  constructor
  · intro hd
    cases w with
    | «local» => exact ⟨Option.some.inj (hd.2.1.symm.trans h.2.1), rfl⟩
    | ip => exact absurd h (hd.1 pid)
    | site => exact absurd h (hd.1 pid)
    | manual => exact hd.elim
  · rintro ⟨rfl, rfl⟩
    exact h

section Domain

variable {c : Check} (hout : ∀ b, ¬ Inside servers c b) (hnil : targetHost py c ≠ [])
  (hip : isIp (targetHost py c) = false)

include hout hnil hip

/-- The addresses lead to a server that the sites do not name. -/
theorem decides_owner {owner : Nat} (ho : DnsOf servers resolved (targetHost py c) owner)
    (hne : ¬ SiteOf py servers (targetHost py c) owner) {a : Nat} {w : Why} :
    Decides py servers resolved c a w ↔ a = owner ∧ w = .ip := by
  constructor
  · intro h
    cases w with
    | «local» => exact absurd h (hout a)
    | ip =>
      rcases h.2.2 with ⟨hip', -⟩ | ⟨-, hd, -⟩
      · simp [hip] at hip'
      · exact ⟨hd.unique ho, rfl⟩
    | site =>
      obtain ⟨-, -, -, hs, hd⟩ := h
      exact absurd (hd owner ho ▸ hs) hne
    | manual => exact h.elim
  · rintro ⟨rfl, rfl⟩
    exact ⟨hout, hnil, .inr ⟨hip, ho, hne⟩⟩

/-- The addresses lead to no server, or to the one that the sites name. -/
theorem decides_site (hdns : ∀ o, DnsOf servers resolved (targetHost py c) o →
    SiteOf py servers (targetHost py c) o) {a : Nat} {w : Why} :
    Decides py servers resolved c a w ↔ SiteOf py servers (targetHost py c) a ∧ w = .site := by
  constructor
  · intro h
    cases w with
    | «local» => exact absurd h (hout a)
    | ip =>
      rcases h.2.2 with ⟨hip', -⟩ | ⟨-, hd, hs⟩
      · simp [hip] at hip'
      · exact absurd (hdns a hd) hs
    | site => exact ⟨h.2.2.2.1, rfl⟩
    | manual => exact h.elim
  · rintro ⟨hs, rfl⟩
    exact ⟨hout, hnil, hip, hs, fun b hb => (hdns b hb).unique hs⟩

end Domain

/-- What `parents_of` finds for a monitor in auto mode: the server bound to it by the
sign that decides. -/
theorem mem_parentsOf {c : Check} (hc : c.parentMode = .auto) {a : Nat} {w : Why} :
    (a, w) ∈ parentsOf py c (index py servers resolved) ↔
      Decides py servers resolved c a w := by
  unfold parentsOf
  rw [hc]
  dsimp only
  cases hin : c.probeServerId.filter fun pid =>
      c.probeLocal && (index py servers resolved).has pid with
  | some pid =>
    rw [decides_inside (inside_some.mp hin)]
    simp only [List.mem_singleton, Prod.mk.injEq]
  | none =>
    have hout := inside_none.mp hin
    dsimp only
    split_ifs with hnil hip
    · cases w <;> simp [Decides, hout, hnil]
    · rw [mem_only, ips_eq]
      cases w <;> simp [Decides, hout, hnil, hip, AddressOf]
    · have hip : isIp (targetHost py c) = false := by simpa using hip
      cases hdns : (dnsOwner (targetHost py c) (index py servers resolved)).filter
          fun o => (index py servers resolved).domains (targetHost py c) ≠ [o] with
      | some owner =>
        obtain ⟨ho, hne⟩ := Option.filter_eq_some_iff.mp hdns
        have hne : ¬ SiteOf py servers (targetHost py c) owner :=
          fun hs => of_decide_eq_true hne (domains_eq.mpr hs)
        rw [decides_owner hout hnil hip (dnsOwner_eq.mp ho) hne]
        simp only [List.mem_singleton, Prod.mk.injEq]
      | none =>
        have hdns : ∀ o, DnsOf servers resolved (targetHost py c) o →
            SiteOf py servers (targetHost py c) o := by
          intro o ho
          rw [Option.filter_eq_none_iff] at hdns
          have := of_decide_eq_false (Bool.eq_false_of_not_eq_true (hdns o (dnsOwner_eq.mpr ho)))
          exact domains_eq.mp (not_not.mp this)
        dsimp only
        rw [decides_site hout hnil hip hdns, mem_only, domains_eq]

/-- With a second server that shares the sign, the parent goes; it stays only where the
sites decided and all addresses of the domain are its own, the stronger sign. -/
theorem kept_by_dns {c : Check} (hc : c.parentMode = .auto) {a : Nat} {w w' : Why} {s : Server}
    (h : (a, w) ∈ parentsOf py c (index py servers resolved)) (hid : s.id ≠ a)
    (hs : Shares py resolved c s w)
    (h' : (a, w') ∈ parentsOf py c (index py (s :: servers) resolved)) :
    w = .site ∧ w' = .ip ∧ DnsOf (s :: servers) resolved (targetHost py c) a := by
  rw [mem_parentsOf hc] at h h'
  have notsole : ∀ {p : Server → Bool}, p s = true → ¬ Sole (s :: servers) p a :=
    fun hp hsole => hid (hsole.2 s (List.mem_cons_self ..) hp)
  have fewer : ∀ {p : Server → Bool}, Sole (s :: servers) p a → Sole servers p a := by
    intro p hsole
    refine ⟨?_, fun t ht => hsole.2 t (List.mem_cons_of_mem _ ht)⟩
    obtain ⟨t, ht, hp, hta⟩ := hsole.1
    rcases List.mem_cons.mp ht with rfl | ht
    · exact absurd hta hid
    · exact ⟨t, ht, hp, hta⟩
  have outside : ∀ {w}, Decides py servers resolved c a w → Shares py resolved c s w →
      ¬ Inside (s :: servers) c a := by
    intro w hd hsh hin
    have : Inside servers c a := ⟨hin.1, hin.2.1, by simpa [hid.symm] using hin.2.2⟩
    cases w with
    | ip => exact hd.1 a this
    | site => exact hd.1 a this
    | _ => exact hsh
  cases w with
  | «local» => exact hs.elim
  | manual => exact hs.elim
  | ip =>
    exfalso
    cases w' with
    | «local» => exact outside h hs h'
    | manual => exact h'
    | ip =>
      rcases hs with ⟨hip, ho⟩ | ⟨hip, ip, hmem, ho⟩
      · rcases h'.2.2 with ⟨-, haddr⟩ | ⟨hip', -⟩
        · exact notsole ho haddr
        · simp [hip] at hip'
      · rcases h'.2.2 with ⟨hip', -⟩ | ⟨-, hdns, -⟩
        · simp [hip] at hip'
        · exact notsole ho (hdns.2 ip hmem)
    | site =>
      have h'site : isIp (targetHost py c) = false := h'.2.2.1
      rcases h.2.2 with ⟨hip, -⟩ | ⟨-, -, hno⟩
      · simp [hip] at h'site
      · exact hno (fewer h'.2.2.2.1)
  | site =>
    cases w' with
    | «local» => exact absurd h' (outside h hs)
    | manual => exact h'.elim
    | site => exact absurd h'.2.2.2.1 (notsole hs)
    | ip =>
      rcases h'.2.2 with ⟨hip, -⟩ | ⟨-, hdns, -⟩
      · simp [h.2.2.1] at hip
      · exact ⟨rfl, rfl, hdns⟩

end Signs

/-! ## Servers behind servers -/

/-- The relation between the servers, as a map. -/
def Fleet.behind (f : Fleet) : Nat → Option Nat := fun a => f.chain.lookup a

theorem keys_chain_sublist (servers : List Server) :
    (Dict.keys (servers.filterMap fun s => s.parentId.map fun p => (s.id, p))).Sublist
      (servers.map Server.id) := by
  induction servers with
  | nil => exact .slnil
  | cons s servers ih =>
    rw [List.filterMap_cons]
    cases s.parentId with
    | none => exact ih.cons _
    | some p => exact ih.cons_cons _

theorem behind_eq {f : Fleet} {a b : Nat} :
    f.behind a = some b ↔ ∃ s ∈ f.servers, s.id = a ∧ s.parentId = some b := by
  have keys : (Dict.keys f.chain).Nodup := List.Nodup.sublist (keys_chain_sublist _) f.nodup
  unfold Fleet.behind
  rw [Dict.lookup_iff_mem keys]
  simp [Fleet.chain, and_comm]

/-- `would_cycle` ends on any stored map, with or without a cycle, in at most two steps
more than the map has entries. -/
theorem wouldCycle_ends (parentOf : List (Nat × Nat)) (serverId parentId : Nat) :
    ∃ answer, ∀ steps, parentOf.length + 2 ≤ steps →
      wouldCycle steps serverId parentId parentOf = some answer := by
  have hdom : ∀ a, (fun a => parentOf.lookup a) a ≠ none → a ∈ Dict.keys parentOf := by
    intro a ha
    by_contra hno
    exact ha (Dict.lookup_eq_none.mpr hno)
  have hlen : (Dict.keys parentOf).length = parentOf.length := List.length_map _
  have hend : (wouldCycle (parentOf.length + 2) serverId parentId parentOf).isSome := by
    apply walk_ends hdom
    have := List.length_filter_le (· ∉ [serverId]) (Dict.keys parentOf)
    omega
  obtain ⟨answer, hanswer⟩ := Option.isSome_iff_exists.mp hend
  refine ⟨answer, fun steps hsteps => ?_⟩
  induction steps, hsteps using Nat.le_induction with
  | base => exact hanswer
  | succ n _ ih => exact walk_mono ih

theorem behind_setParent {f : Fleet} {id : Nat} (p : Option Nat) (hid : id ∈ f.ids) :
    (f.setParent id p).behind = Function.update f.behind id p := by
  funext a
  apply Option.ext
  intro b
  rw [behind_eq]
  simp only [Fleet.setParent, Fleet.mapRows, List.mem_map, exists_exists_and_eq_and]
  by_cases ha : a = id
  · subst ha
    rw [Function.update_self]
    constructor
    · rintro ⟨s, hs, hsa, hb⟩
      split_ifs at hsa hb with h
      · exact hb
      · exact absurd hsa h
    · intro hb
      obtain ⟨s, hs, hsa⟩ := List.mem_map.mp hid
      exact ⟨s, hs, by simp [hsa], by simp [hsa, hb]⟩
  · rw [Function.update_of_ne ha, behind_eq]
    constructor
    · rintro ⟨s, hs, hsa, hb⟩
      split_ifs at hsa hb with h
      · exact absurd (hsa.symm.trans h) ha
      · exact ⟨s, hs, hsa, hb⟩
    · rintro ⟨s, hs, rfl, hb⟩
      exact ⟨s, hs, by simp [ha], by simp [ha, hb]⟩

/-- What an edit other than a new link leaves was there before. -/
theorem behind_mapRows (f : Fleet) (g : Server → Server) (hg : ∀ s, (g s).id = s.id)
    (hsub : ∀ s b, (g s).parentId = some b → s.parentId = some b) {a b : Nat}
    (h : (f.mapRows g hg).behind a = some b) : f.behind a = some b := by
  obtain ⟨s, hs, hsa, hb⟩ := behind_eq.mp h
  obtain ⟨t, ht, rfl⟩ := List.mem_map.mp hs
  exact behind_eq.mpr ⟨t, ht, (hg t).symm.trans hsa, hsub t b hb⟩

theorem behind_remove {f : Fleet} {id a b : Nat} (h : (f.remove id).behind a = some b) :
    f.behind a = some b := by
  obtain ⟨s, hs, hsa, hb⟩ := behind_eq.mp h
  exact behind_eq.mpr ⟨s, List.mem_of_mem_filter hs, hsa, hb⟩

theorem behind_insert {f : Fleet} {s : Server} {a b : Nat} (h : (f.insert s).behind a = some b) :
    f.behind a = some b := by
  unfold Fleet.insert at h
  split_ifs at h with hs
  · exact h
  · obtain ⟨t, ht, hta, hb⟩ := behind_eq.mp h
    rcases List.mem_append.mp ht with ht | ht
    · exact behind_eq.mpr ⟨t, ht, hta, hb⟩
    · obtain rfl := List.mem_singleton.mp ht
      cases hb

/-- An accepted link closes no cycle. -/
theorem edited_acyclic {f : Fleet} (h : Acyclic f.behind) (e : Edit) :
    Acyclic (edited f e).behind := by
  cases e with
  | link id p =>
    dsimp only [edited]
    split_ifs with hok
    · obtain ⟨hid, -, -, hwalk⟩ := hok
      rw [behind_setParent _ hid]
      apply h.link
      intro c hc hca
      exact walk_false hwalk hc (by simp [hca])
    · exact h
  | unlink id =>
    apply h.mono
    intro a b hb
    refine behind_mapRows _ _ (fun s => by split <;> rfl) ?_ hb
    intro s b hb
    split_ifs at hb
    exact hb
  | add s => exact h.mono fun a b => behind_insert
  | delete id =>
    apply h.mono
    intro a b hb
    apply behind_remove
    refine behind_mapRows _ _ (fun s => by split <;> rfl) ?_ hb
    intro s b hb
    split_ifs at hb
    exact hb

/-- On servers without a cycle `would_cycle` refuses what would close one, and only that. -/
theorem wouldCycle_iff {f : Fleet} (h : Acyclic f.behind) {id p : Nat} :
    wouldCycle (f.chain.length + 2) id p f.chain = some true ↔
      ¬ Acyclic (Function.update f.behind id (some p)) := by
  obtain ⟨answer, hend⟩ := wouldCycle_ends f.chain id p
  constructor
  · intro hw
    obtain ⟨b, hb, hseen⟩ := walk_true hw
    rcases hseen with hseen | hcycle
    · obtain rfl := List.mem_singleton.mp hseen
      exact link_cycle hb
    · exact absurd hcycle (h b)
  · intro hno
    rw [hend _ le_rfl]
    cases answer with
    | true => rfl
    | false =>
      refine absurd (h.link ?_) hno
      intro c hc hca
      exact walk_false (hend _ le_rfl) hc (by simp [hca])

/-! ## All together -/

/-- What holds of the parents that the panel finds and of those that are set by hand. -/
structure Unambiguous (py : Library) : Prop where
  /-- A parent is the one server that the deciding sign binds to the monitor. -/
  bound : ∀ servers resolved c a w, c.parentMode = .auto →
    ((a, w) ∈ parentsOf py c (index py servers resolved) ↔ Decides py servers resolved c a w)
  /-- There is at most one. -/
  one : ∀ c idx, (parentsOf py c idx).length ≤ 1
  /-- Once a second server shares the sign, only the stronger one keeps the parent. -/
  shared : ∀ servers resolved c a w w' s, c.parentMode = .auto →
    (a, w) ∈ parentsOf py c (index py servers resolved) → s.id ≠ a →
    Shares py resolved c s w →
    (a, w') ∈ parentsOf py c (index py (s :: servers) resolved) →
    w = .site ∧ w' = .ip ∧ DnsOf (s :: servers) resolved (targetHost py c) a
  /-- The servers stay without a cycle over any edits. -/
  acyclic : ∀ f edits, Acyclic f.behind → Acyclic (run edited f edits).behind
  /-- `would_cycle` ends on any map. -/
  ends : ∀ parentOf serverId parentId, ∃ answer, ∀ steps, parentOf.length + 2 ≤ steps →
    wouldCycle steps serverId parentId parentOf = some answer

theorem length_parentsOf (py : Library) (c : Check) (idx : Index) :
    (parentsOf py c idx).length ≤ 1 := by
  have few : ∀ (o : Option Nat) (w : Why), (o.toList.map fun pid => (pid, w)).length ≤ 1 := by
    intro o w
    cases o <;> simp
  unfold parentsOf
  split
  · simp
  · exact few _ _
  · split
    · simp
    · dsimp only
      split_ifs
      · simp
      · exact few _ _
      · split
        · simp
        · exact few _ _

theorem parents_unambiguous (py : Library) : Unambiguous py where
  bound servers resolved c a w hc := mem_parentsOf hc
  one c idx := length_parentsOf py c idx
  shared servers resolved c a w w' s hc h hid hs h' := kept_by_dns hc h hid hs h'
  acyclic f edits h := by
    induction edits generalizing f with
    | nil => exact h
    | cons e edits ih => exact ih _ (edited_acyclic h e)
  ends parentOf serverId parentId := wouldCycle_ends parentOf serverId parentId

theorem serves_nothing (py : Library) {s : Server} (h : s.sites = []) (d : List Char) :
    s.serves py d = false := by
  simp [Server.serves, h]

theorem owns_nothing {s : Server} (he : s.externalIp = []) (ha : s.agentIp = []) (ip : List Char) :
    s.owns ip = false := by
  have : strip [] = [] := rfl
  cases ip <;> simp [Server.owns, he, ha, this]

/-- A monitor of a foreign domain that is checked from inside a server has that server
as its parent, which neither DNS nor a site nor an address binds to it. -/
theorem inside_binds_alone :
    ¬ ∀ (py : Library) (servers : List Server) (resolved : List Char → List (List Char))
      (c : Check) (a : Nat) (w : Why), c.parentMode = .auto →
      (a, w) ∈ parentsOf py c (index py servers resolved) →
      DnsOf servers resolved (targetHost py c) a ∨ SiteOf py servers (targetHost py c) a ∨
        AddressOf servers (targetHost py c) a := by
  intro h
  have hmem := h ⟨fun s => s, fun _ => some "z.example".toList⟩ [{ id := 2, name := "web-b" }]
    (fun _ => []) { target := "z.example".toList, probeLocal := true, probeServerId := some 2 }
    2 .local rfl (by decide)
  rcases hmem with hdns | ⟨⟨s, hs, hp, -⟩, -⟩ | ⟨⟨s, hs, hp, -⟩, -⟩
  · exact hdns.1 rfl
  · obtain rfl := List.mem_singleton.mp hs
    exact absurd (serves_nothing _ rfl _) (ne_false_of_eq_true hp)
  · obtain rfl := List.mem_singleton.mp hs
    exact absurd (owns_nothing rfl rfl _) (ne_false_of_eq_true hp)

end Kervax.Parents
