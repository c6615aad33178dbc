-- What the hook lets through, and how strict the class is of an address that carries
-- one of the fourth version.
import Kervax.NetGuard

namespace Kervax.NetGuard

open IpAddress

/-! ## The class of a host -/

theorem rank_le_foldl (cs : List Class) (c : Class) :
    c.rank ≤ (cs.foldl worse c).rank ∧ ∀ d ∈ cs, d.rank ≤ (cs.foldl worse c).rank := by
  induction cs generalizing c with
  | nil => simp
  | cons d cs ih =>
    have hc : c.rank ≤ (worse c d).rank ∧ d.rank ≤ (worse c d).rank := by
      unfold worse
      split_ifs <;> omega
    rw [List.foldl_cons]
    obtain ⟨hstart, hrest⟩ := ih (worse c d)
    refine ⟨by omega, ?_⟩
    intro x hx
    rcases List.mem_cons.mp hx with rfl | hx
    · omega
    · exact hrest x hx

variable {lower : List Char → List Char}

/-- No address that a name resolves to is of a worse class than the host. -/
theorem resolved_le {host : List Char} {resolved : List (List Char)}
    (hne : normal lower host ≠ []) (hip : isIp (normal lower host) = false) :
    ∀ ip ∈ resolved, (ipClass ip).rank ≤ (hostClass lower host resolved).rank := by
  intro ip hmem
  unfold hostClass
  dsimp only
  rw [if_neg hne, if_neg (by simp [hip])]
  split_ifs
  · cases ipClass ip <;> decide
  · exact (rank_le_foldl _ _).2 _ (List.mem_map_of_mem hmem)

/-- The name is one of the metadata, as the hook asks it of a name that a proxy resolves. -/
def OfMetadata (lower : List Char → List Char) (r : Request) : Prop :=
  Texts.rstripBy (· = '.') (lower r.host) ∈ metadataNames

/-- Without a proxy the hook finds the class of the host. -/
theorem classify_direct (r : Request) : classify lower false r = classOf lower false r := by
  simp [classify, classOf]

/-- And of an address in any case. -/
theorem classify_address {proxy : Bool} {r : Request} (hip : isIp r.host = true) :
    classify lower proxy r = classOf lower proxy r := by
  simp [classify, classOf, hip]

/-- Of a name that a proxy resolves it asks only whether it is one of the metadata. -/
theorem classify_proxied {r : Request} (hip : isIp r.host = false) :
    (OfMetadata lower r → classify lower true r = .forbidden) ∧
      (¬ OfMetadata lower r → classify lower true r = .outside) := by
  have hread : readHost r.host = none := by simpa [isIp] using hip
  constructor
  · intro h
    unfold OfMetadata at h
    simp [classify, hip, h]
  · intro h
    unfold OfMetadata at h
    simp [classify, hip, h, ipClass, hread]

/-! ## The chain -/

@[simp] theorem after_nil (proxy : Bool) : after lower proxy [] = none := rfl

/-- The state is the class of the first request of the chain. -/
theorem after_eq (proxy : Bool) (past : List Request) :
    after lower proxy past = past.head?.map (classify lower proxy) := by
  induction past using List.reverseRecOn with
  | nil => rfl
  | append_singleton past r ih =>
    unfold after at ih ⊢
    rw [Runs.run_snoc, ih]
    cases past <;> rfl

/-- What is let through is not forbidden for the hook, and not internal where the first was
outside. -/
theorem sent_snoc {proxy : Bool} {past : List Request} {r : Request} :
    Sent lower proxy (past ++ [r]) ↔ Sent lower proxy past ∧ classify lower proxy r ≠ .forbidden ∧
      ((past ++ [r]).head?.map (classify lower proxy) = some .outside →
        classify lower proxy r ≠ .internal) := by
  unfold Sent
  rw [Runs.along_snoc]
  refine and_congr_right fun _ => ?_
  have hstate : Runs.run (fun first r => (hook lower proxy first r).1) none past =
      past.head?.map (classify lower proxy) := after_eq proxy past
  have hfirst : (past ++ [r]).head?.map (classify lower proxy) =
      some ((past.head?.map (classify lower proxy)).getD (classify lower proxy r)) := by
    cases past <;> rfl
  rw [hstate, hfirst]
  unfold hook
  dsimp only
  split_ifs with hforb hint
  · simp [hforb]
  · exact iff_of_false (by simp) fun h => h.2 (congrArg some hint.2) hint.1
  · refine iff_of_true rfl ⟨hforb, ?_⟩
    intro hpub hc
    exact hint ⟨hc, Option.some.inj hpub⟩

/-- The first request of a chain that is let through is not forbidden for the hook. -/
theorem first_sent {proxy : Bool} {chain : List Request} (h : Sent lower proxy chain) {f : Request}
    (hf : chain.head? = some f) : classify lower proxy f ≠ .forbidden := by
  cases chain with
  | nil => cases hf
  | cons q rest =>
    cases hf
    have hone : Sent lower proxy ([] ++ [f]) := ⟨h.1, trivial⟩
    exact (sent_snoc.mp hone).2.1

/-- What a redirect may not reach. -/
structure Kept (lower : List Char → List Char) (proxy : Bool) (past : List Request) (r : Request) :
    Prop where
  /-- A forbidden host is never asked. -/
  forbidden : Sent lower proxy (past ++ [r]) → classOf lower proxy r ≠ .forbidden
  /-- After a first request outside no internal host is. -/
  internal : Sent lower proxy (past ++ [r]) →
    (past ++ [r]).head?.map (classOf lower proxy) = some .outside →
    classOf lower proxy r ≠ .internal
  /-- Of a name that the panel resolves, the same holds of every address it resolves to. -/
  addresses : Sent lower proxy (past ++ [r]) → proxy = false → isIp r.host = false →
    normal lower r.host ≠ [] → isIp (normal lower r.host) = false → ∀ ip ∈ r.resolved,
      ipClass ip ≠ .forbidden ∧
        ((past ++ [r]).head?.map (classOf lower proxy) = some .outside → ipClass ip ≠ .internal)

/-- A host that the hook sees for what it is: it is not behind a proxy, it is an address, one
of the metadata, or a name that is outside by its looks. -/
def Seen (lower : List Char → List Char) (proxy : Bool) (r : Request) : Prop :=
  proxy = false ∨ isIp r.host = true ∨ OfMetadata lower r ∨ hostClass lower r.host [] = .outside

/-- A host that the hook sees is sent only if it is no worse than the hook finds. -/
theorem Seen.class_eq {proxy : Bool} {r : Request} (h : Seen lower proxy r)
    (hsent : classify lower proxy r ≠ .forbidden) :
    classOf lower proxy r = classify lower proxy r := by
  cases proxy with
  | false => exact (classify_direct r).symm
  | true =>
    cases hip : isIp r.host with
    | true => exact (classify_address hip).symm
    | false =>
      obtain ⟨hmeta, hout⟩ : (OfMetadata lower r → _) ∧ (¬ OfMetadata lower r → _) :=
        classify_proxied hip
      rcases h with h | h | h | h
      · cases h
      · rw [hip] at h
        cases h
      · exact absurd (hmeta h) hsent
      · rw [hout fun hm => hsent (hmeta hm)]
        simpa [classOf, hip] using h

/-- A first request that is let through and is outside is outside for the hook. -/
theorem first_outside {proxy : Bool} {chain : List Request} (h : Sent lower proxy chain)
    (hf : chain.head?.map (classOf lower proxy) = some .outside) :
    chain.head?.map (classify lower proxy) = some .outside := by
  obtain ⟨f, hhead, hcls⟩ := Option.map_eq_some_iff.mp hf
  rw [hhead, Option.map_some, Option.some.injEq]
  have hsent := first_sent h hhead
  cases proxy with
  | false => rw [classify_direct, hcls]
  | true =>
    cases hip : isIp f.host with
    | true => rw [classify_address hip, hcls]
    | false =>
      obtain ⟨hmeta, hout⟩ : (OfMetadata lower f → _) ∧ (¬ OfMetadata lower f → _) :=
        classify_proxied hip
      exact hout fun hm => hsent (hmeta hm)

theorem kept_of_seen {proxy : Bool} {r : Request} (hr : Seen lower proxy r) (past : List Request) :
    Kept lower proxy past r where
  forbidden h := by
    obtain ⟨-, hforb, -⟩ := sent_snoc.mp h
    rwa [hr.class_eq hforb]
  internal h hf := by
    obtain ⟨-, hforb, hint⟩ := sent_snoc.mp h
    rw [hr.class_eq hforb]
    exact hint (first_outside h hf)
  addresses h hproxy hip hne hlit ip hmem := by
    obtain ⟨-, hforb, hint⟩ := sent_snoc.mp h
    have hcls : classify lower proxy r = hostClass lower r.host r.resolved := by
      simp [classify, hproxy, hip]
    have hle := resolved_le hne hlit ip hmem
    rw [← hcls] at hle
    constructor
    · intro hc
      rw [hc] at hle
      cases hr : classify lower proxy r <;> simp_all [Class.rank]
    · intro hf hc
      have := hint (first_outside h hf)
      rw [hc] at hle
      cases hr : classify lower proxy r <;> simp_all [Class.rank]

/-- An address of the internet. -/
def oneOneOneOne : Request := { host := "1.1.1.1".toList }

/-- What the hook does not see may be asked, and after a first request outside as well. -/
theorem seen_of_kept {proxy : Bool} {r : Request} (h : ∀ past, Kept lower proxy past r) :
    Seen lower proxy r := by
  by_contra hno
  unfold Seen at hno
  push Not at hno
  obtain ⟨hproxy, hip, hmeta, hcls⟩ := hno
  have hproxy : proxy = true := by simpa using hproxy
  have hip : isIp r.host = false := by simpa using hip
  subst hproxy
  have hfind : classify lower true r = .outside := (classify_proxied hip).2 hmeta
  have hname : classOf lower true r = hostClass lower r.host [] := by simp [classOf, hip]
  -- a chain that begins at an address outside
  have haddr : isIp oneOneOneOne.host = true := by decide +kernel
  have hone : ipClass oneOneOneOne.host = .outside := by decide +kernel
  have hfirst : classOf lower true oneOneOneOne = .outside := by simp [classOf, haddr, hone]
  have hfound : classify lower true oneOneOneOne = .outside := by
    rw [classify_address haddr, hfirst]
  have hstart : Sent lower true ([] ++ [oneOneOneOne]) :=
    sent_snoc.mpr ⟨trivial, by simp [hfound], fun _ => by simp [hfound]⟩
  have hsent : Sent lower true ([oneOneOneOne] ++ [r]) :=
    sent_snoc.mpr ⟨hstart, by simp [hfind], fun _ => by simp [hfind]⟩
  obtain ⟨hforb, hint, -⟩ := h [oneOneOneOne]
  have hforb := hforb hsent
  have hint := hint hsent (by simp [hfirst])
  rw [hname] at hforb hint
  cases hc : hostClass lower r.host [] with
  | outside => exact hcls hc
  | internal => exact hint hc
  | forbidden => exact hforb hc

/-- Exactly the hosts that the hook sees are kept out of every chain where they should be. -/
theorem kept_iff {proxy : Bool} {r : Request} :
    (∀ past, Kept lower proxy past r) ↔ Seen lower proxy r :=
  ⟨seen_of_kept, fun h past => kept_of_seen h past⟩

/-! ## Addresses that carry one of the fourth version -/

theorem addrClass_mapped (e : BitVec 32) (scope : Option (List Char)) :
    addrClass (.v6 (Carrier.mapped.carry e) scope) = addrClass (.v4 e) := by
  unfold addrClass
  rw [unmapped_mapped]
  rfl

/-- An address of the sixth version that is neither forbidden nor outside. -/
theorem addrClass_internal {ip : BitVec 128} {scope : Option (List Char)}
    (hmap : ip.toNat / 2 ^ 32 ≠ 0xffff) (hmeta : Address.v6 ip scope ∉ metadata)
    (hlink : ip.toNat / 2 ^ 118 ≠ 0x3fa) (hmulti : ip.toNat / 2 ^ 120 ≠ 0xff) (hzero : ip ≠ 0)
    (hin : (Address.v6 ip scope).isPrivate = true ∨ (Address.v6 ip scope).isReserved = true) :
    addrClass (.v6 ip scope) = .internal := by
  have hun : unmapped (.v6 ip scope) = .v6 ip scope := by
    dsimp only [unmapped]
    rw [ipv4Mapped_eq_none hmap]
  have hl : (Address.v6 ip scope).isLinkLocal = false := by
    unfold Address.isLinkLocal
    rw [hun]
    exact (holds_v6 (by decide)).trans (decide_eq_false hlink)
  have hm : (Address.v6 ip scope).isMulticast = false := by
    unfold Address.isMulticast
    rw [hun]
    exact (holds_v6 (by decide)).trans (decide_eq_false hmulti)
  have hz : (Address.v6 ip scope).isUnspecified = false := by
    unfold Address.isUnspecified
    rw [hun]
    simpa using hzero
  unfold addrClass
  rw [hun]
  dsimp only
  rw [if_neg (by simp [hmeta, hl, hm, hz]), if_pos]
  rcases hin with hp | hr
  · exact .inr (.inl hp)
  · exact .inr (.inr (.inl hr))

theorem notMem_metadata {ip : BitVec 128} {scope : Option (List Char)}
    (h : ip.toNat ≠ 0xfd000ec2000000000000000000000254) : Address.v6 ip scope ∉ metadata := by
  intro hmem
  rcases List.mem_cons.mp hmem with heq | hmem
  · apply h
    injection heq with hip
    rw [hip]
    rfl
  · simp at hmem

/-- Behind the prefix of NAT64 any address is only internal: the block is reserved. -/
theorem addrClass_nat64 (e : BitVec 32) (scope : Option (List Char)) :
    addrClass (.v6 (Carrier.nat64.carry e) scope) = .internal := by
  have hlt := e.isLt
  have hval := toNat_nat64 e
  have hmap : (Carrier.nat64.carry e).toNat / 2 ^ 32 ≠ 0xffff := by omega
  apply addrClass_internal hmap (notMem_metadata (by omega)) (by omega) (by omega)
  · intro hzero
    rw [hzero] at hval
    simp at hval
    omega
  · right
    unfold Address.isReserved
    dsimp only [unmapped]
    rw [ipv4Mapped_eq_none hmap]
    dsimp only
    rw [List.any_eq_true]
    refine ⟨.v6 0 8, by decide, (holds_v6 (by decide)).trans (decide_eq_true ?_)⟩
    change _ = 0
    omega

/-- So is any address in the prefix of 6to4: the block is private. -/
theorem addrClass_sixToFour (rest : BitVec 80) (e : BitVec 32) (scope : Option (List Char)) :
    addrClass (.v6 ((Carrier.sixToFour rest).carry e) scope) = .internal := by
  have hlt := e.isLt
  have hrest := rest.isLt
  have hval := toNat_sixToFour rest e
  have hmap : ((Carrier.sixToFour rest).carry e).toNat / 2 ^ 32 ≠ 0xffff := by omega
  apply addrClass_internal hmap (notMem_metadata (by omega)) (by omega) (by omega)
  · intro hzero
    rw [hzero] at hval
    simp at hval
    omega
  · left
    unfold Address.isPrivate
    dsimp only [unmapped]
    rw [ipv4Mapped_eq_none hmap]
    dsimp only
    rw [Bool.and_eq_true, List.any_eq_true, List.all_eq_true]
    constructor
    · refine ⟨.v6 0x20020000000000000000000000000000 16, by decide,
        (holds_v6 (by decide)).trans (decide_eq_true ?_)⟩
      change _ = 0x2002
      omega
    · -- the exceptions are all in 2001::/16
      intro n hn
      simp only [v6PrivateExceptions, List.mem_cons, List.not_mem_nil, or_false] at hn
      rcases hn with rfl | rfl | rfl | rfl | rfl | rfl <;>
        rw [Bool.not_eq_true', holds_v6 (by decide), decide_eq_false_iff_not] <;>
        simp <;> omega

/-! ## The guard as a whole -/

/-- The address that carries `e` is of no milder class than `e` itself. -/
def Strict (k : Carrier) (e : BitVec 32) : Prop :=
  (addrClass (.v4 e)).rank ≤ (addrClass (.v6 (k.carry e) none)).rank

theorem rank_le_internal {c : Class} : c.rank ≤ Class.internal.rank ↔ c ≠ .forbidden := by
  cases c <;> decide

theorem strict_iff {k : Carrier} {e : BitVec 32} :
    Strict k e ↔ k = .mapped ∨ addrClass (.v4 e) ≠ .forbidden := by
  unfold Strict
  cases k with
  | mapped => simp [addrClass_mapped]
  | nat64 =>
    rw [addrClass_nat64, rank_le_internal]
    simp
  | sixToFour rest =>
    rw [addrClass_sixToFour, rank_le_internal]
    simp

/-- The hook keeps what it should of every chain, and what carries an address of the fourth
version is as strict as it, exactly where the hook sees the host and the address is mapped
or not forbidden. -/
theorem redirects_kept_out (lower : List Char → List Char) (proxy : Bool) (r : Request) (k : Carrier)
    (e : BitVec 32) :
    (∀ past, Kept lower proxy past r) ∧ Strict k e ↔
      Seen lower proxy r ∧ (k = .mapped ∨ addrClass (.v4 e) ≠ .forbidden) := by
  rw [kept_iff, strict_iff]

/-- 169.254.169.254 is forbidden, and 64:ff9b::a9fe:a9fe is only internal; and through a
proxy a redirect from outside reaches localhost. -/
theorem metadata_behind_nat64 :
    (¬ ∀ (k : Carrier) (e : BitVec 32),
      (addrClass (.v4 e)).rank ≤ (addrClass (.v6 (k.carry e) none)).rank) ∧
    ¬ ∀ (past : List Request) (r : Request), Kept id true past r := by
  constructor
  · intro h
    have hle := h .nat64 0xa9fea9fe
    revert hle
    decide
  · intro h
    obtain ⟨-, hint, -⟩ := h [oneOneOneOne] { host := "localhost".toList }
    have hstep : (hook id true none oneOneOneOne).2 = none ∧
        (hook id true (hook id true none oneOneOneOne).1 { host := "localhost".toList }).2 = none := by
      decide +kernel
    exact hint ⟨hstep.1, hstep.2, trivial⟩ (by decide +kernel) (by decide +kernel)

end Kervax.NetGuard
