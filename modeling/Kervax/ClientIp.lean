-- The key of a client behind the panel's own proxies (`client_ip.py`): the
-- header that the proxies wrote is read from the right, and the first address
-- that is none of theirs is the client.
import Kervax.IpAddress

namespace Kervax

open IpAddress

/-! ## The key -/

/-- `PROXY_NETS`. -/
def proxyNets : List Network :=
  [.v4 0x0a000000 8, .v4 0xac100000 12, .v4 0xc0a80000 16, .v4 0x7f000000 8,
   .v6 1 128, .v6 0xfc000000000000000000000000000000 7]

/-- `is_proxy`. -/
def isProxy (ip : Address) : Bool := proxyNets.any fun n => n.holds ip

/-- The characters that `str.strip` takes off. -/
def isSpace (c : Char) : Bool :=
  let n := c.toNat
  (9 ≤ n ∧ n ≤ 13) ∨ (28 ≤ n ∧ n ≤ 32) ∨ n = 0x85 ∨ n = 0xa0 ∨ n = 0x1680 ∨
    (0x2000 ≤ n ∧ n ≤ 0x200a) ∨ n = 0x2028 ∨ n = 0x2029 ∨ n = 0x202f ∨ n = 0x205f ∨ n = 0x3000

/-- `part.strip()`. -/
def strip (s : List Char) : List Char :=
  ((s.dropWhile isSpace).reverse.dropWhile isSpace).reverse

/-- The addresses of the header, left to right; what is no address is skipped. -/
def chain (xff : List Char) : List Address :=
  (xff.splitOn ',').filterMap fun part => ipAddress (strip part)

/-- `host or "unknown"`. -/
def hostOr (host : Option (List Char)) : List Char :=
  if host.getD [] = [] then "unknown".toList else host.getD []

/-- The key that the header gives when the connection came from an own proxy. -/
def keyOfChain (host : List Char) (ips : List Address) : List Char :=
  match ips.reverse.find? fun ip => !isProxy ip with
  | some ip => ip.str
  | none =>
    match ips with
    | [] => host
    | ip :: _ => ip.str

/-- `client_key`. -/
def clientKey (host : Option (List Char)) (xff : List Char) : List Char :=
  match ipAddress (hostOr host) with
  | none => hostOr host
  | some ip => if isProxy ip then keyOfChain (hostOr host) (chain xff) else hostOr host

/-! ## A request on its way to the panel -/

/-- The two ends of a connection know each other by a text that reads as an
address. -/
structure Peer where
  text : List Char
  addr : Address
  reads : ipAddress text = some addr
  noComma : ',' ∉ text
  trimmed : strip text = text

/-- What a proxy makes of the header that it got: it writes down whom it saw. -/
def relay (header : List Char) (saw : Peer) : List Char :=
  if header = [] then saw.text else header ++ ',' :: ' ' :: saw.text

/-- The key of a client that sent `header` through the own proxies `via`, first
proxy first. Each proxy writes down the hop before it; the last hop is the
connection that the panel sees. -/
def keyVia (client : Peer) (via : List Peer) (header : List Char) : List Char :=
  clientKey (some ((client :: via).getLastD client).text)
    ((client :: via).dropLast.foldl relay header)

theorem strip_space (s : List Char) : strip (' ' :: s) = strip s := by
  unfold strip
  have hs : isSpace ' ' = true := by decide
  rw [List.dropWhile_cons_of_pos hs]

theorem chain_nil : chain [] = [] := by decide

/-- What a proxy writes is the last address of the chain. -/
theorem chain_relay (header : List Char) (saw : Peer) :
    chain (relay header saw) = chain header ++ [saw.addr] := by
  unfold relay
  split
  · next hh =>
    subst hh
    rw [chain_nil]
    unfold chain
    rw [List.splitOn_eq_singleton saw.noComma]
    simp [saw.trimmed, saw.reads]
  · unfold chain
    have hc : ',' ∉ ' ' :: saw.text := by
      simp only [List.mem_cons, not_or]
      exact ⟨by decide, saw.noComma⟩
    rw [List.splitOn_append_cons_self, List.splitOn_eq_singleton hc, List.filterMap_append]
    simp [strip_space, saw.trimmed, saw.reads]

theorem chain_relays (saw : List Peer) (header : List Char) :
    chain (saw.foldl relay header) = chain header ++ saw.map Peer.addr := by
  induction saw generalizing header with
  | nil => simp
  | cons p rest ih => rw [List.foldl_cons, ih, chain_relay]; simp

theorem Peer.hostOr_text (p : Peer) : hostOr (some p.text) = p.text := by
  have hne : p.text ≠ [] := by
    intro h
    have hr := p.reads
    rw [h, show ipAddress [] = none by decide] at hr
    cases hr
  simp [hostOr, hne]

/-- The key at a connection from a peer. -/
theorem clientKey_peer (p : Peer) (xff : List Char) :
    clientKey (some p.text) xff =
      if isProxy p.addr then keyOfChain p.text (chain xff) else p.text := by
  unfold clientKey
  rw [p.hostOr_text, p.reads]

/-- The rightmost address that is not a proxy decides, whatever stands left of
it. -/
theorem keyOfChain_stranger (host : List Char) (left proxies : List Address) (ip : Address)
    (hp : ∀ q ∈ proxies, isProxy q = true) (hip : isProxy ip = false) :
    keyOfChain host (left ++ ip :: proxies) = ip.str := by
  have hnone : proxies.reverse.find? (fun ip => !isProxy ip) = none := by
    rw [List.find?_eq_none]
    intro q hq
    simp [hp q (List.mem_reverse.mp hq)]
  unfold keyOfChain
  rw [List.reverse_append, List.reverse_cons, List.append_assoc, List.find?_append, hnone]
  simp [hip]

/-- A connection whose host reads as no address, or as a stranger's, never
looks at the header. -/
theorem clientKey_stranger (host : Option (List Char)) (xff : List Char)
    (h : ∀ ip, ipAddress (hostOr host) = some ip → isProxy ip = false) :
    clientKey host xff = hostOr host := by
  unfold clientKey
  cases hr : ipAddress (hostOr host) with
  | none => rfl
  | some ip => simp [h ip hr]

section
variable (client : Peer) (via : List Peer) (hvia : ∀ p ∈ via, isProxy p.addr = true)

/-- Through own proxies the key is that of the chain. -/
theorem keyVia_cons (last : Peer) (header : List Char) (hl : isProxy last.addr = true) :
    keyVia client (via ++ [last]) header =
      keyOfChain last.text (chain header ++ client.addr :: via.map Peer.addr) := by
  have hd : (client :: (via ++ [last])).dropLast = client :: via := by
    rw [← List.cons_append, List.dropLast_concat]
  have hg : (client :: (via ++ [last])).getLastD client = last := by
    rw [← List.cons_append, List.getLastD_concat]
  unfold keyVia
  rw [hd, hg, clientKey_peer, chain_relays, hl]
  simp

include hvia in
/-- A client on a public address cannot move its key. -/
theorem keyVia_public (hc : isProxy client.addr = false) (header : List Char) :
    keyVia client via header = keyVia client via [] := by
  rcases List.eq_nil_or_concat via with rfl | ⟨front, last, rfl⟩
  · have hkey : ∀ h, keyVia client [] h = client.text := by
      intro h
      have := clientKey_peer client h
      rw [hc] at this
      simpa [keyVia] using this
    rw [hkey, hkey]
  · have hl : isProxy last.addr = true := hvia last (by simp)
    have hf : ∀ q ∈ front.map Peer.addr, isProxy q = true := by
      intro q hq
      obtain ⟨p, hp, rfl⟩ := List.mem_map.mp hq
      exact hvia p (by simp [hp])
    rw [List.concat_eq_append, keyVia_cons client front last header hl,
      keyVia_cons client front last [] hl, keyOfChain_stranger _ _ _ _ hf hc,
      keyOfChain_stranger _ _ _ _ hf hc]

include hvia in
/-- A client on a private address takes any public address it writes for its
key. -/
theorem keyVia_private (hc : isProxy client.addr = true) {header : List Char} {ip : Address}
    (hh : chain header = [ip]) (hip : isProxy ip = false) :
    keyVia client via header = ip.str := by
  rcases List.eq_nil_or_concat via with rfl | ⟨front, last, rfl⟩
  · have hkey := clientKey_peer client header
    rw [hc, if_pos rfl, hh] at hkey
    have hs := keyOfChain_stranger client.text [] [] ip (by simp) hip
    rw [List.nil_append] at hs
    rw [hs] at hkey
    simpa [keyVia] using hkey
  · have hl : isProxy last.addr = true := hvia last (by simp)
    have hf : ∀ q ∈ client.addr :: front.map Peer.addr, isProxy q = true := by
      intro q hq
      rcases List.mem_cons.mp hq with rfl | hq
      · exact hc
      · obtain ⟨p, hp, rfl⟩ := List.mem_map.mp hq
        exact hvia p (by simp [hp])
    rw [List.concat_eq_append, keyVia_cons client front last header hl, hh]
    exact keyOfChain_stranger _ [] _ _ hf hip

end

/-- The key of a client behind own proxies is its own exactly when the client
is on a public address: a client on a private one moves its key with the
header. A connection from no address at all never moves it. -/
theorem key_is_the_clients (client : Peer) (via : List Peer)
    (hvia : ∀ p ∈ via, isProxy p.addr = true) :
    ((∀ header, keyVia client via header = keyVia client via []) ↔ isProxy client.addr = false) ∧
    (∀ host, ipAddress (hostOr host) = none → ∀ header, clientKey host header = clientKey host []) := by
  constructor
  · constructor
    · intro h
      by_contra hc
      have hc : isProxy client.addr = true := by simpa using hc
      -- two headers with two public addresses give two keys
      have c8 : chain "8.8.8.8".toList = [.v4 0x08080808] := by decide +kernel
      have c9 : chain "9.9.9.9".toList = [.v4 0x09090909] := by decide +kernel
      have h8 := keyVia_private client via hvia hc c8 (by decide)
      have h9 := keyVia_private client via hvia hc c9 (by decide)
      rw [h "8.8.8.8".toList] at h8
      rw [h "9.9.9.9".toList, h8] at h9
      exact absurd h9 (by decide +kernel)
    · intro hc header
      exact keyVia_public client via hvia hc header
  · intro host hnone header
    have hs : ∀ ip, ipAddress (hostOr host) = some ip → isProxy ip = false := by
      intro ip hip
      rw [hnone] at hip
      cases hip
    rw [clientKey_stranger host header hs, clientKey_stranger host [] hs]

/-- A client on the office network, and the proxy it comes through. -/
def officeClient : Peer where
  text := "192.168.1.20".toList
  addr := .v4 0xc0a80114
  reads := by decide +kernel
  noComma := by decide
  trimmed := by decide

def dockerProxy : Peer where
  text := "172.18.0.5".toList
  addr := .v4 0xac120005
  reads := by decide +kernel
  noComma := by decide
  trimmed := by decide

def publicClient : Peer where
  text := "203.0.113.7".toList
  addr := .v4 0xcb007107
  reads := by decide +kernel
  noComma := by decide
  trimmed := by decide

theorem key_is_the_clients_public :
    keyVia publicClient [dockerProxy] "8.8.8.8".toList = keyVia publicClient [dockerProxy] [] :=
  (key_is_the_clients publicClient [dockerProxy] (by decide)).1.mpr (by decide) "8.8.8.8".toList

/-- The office client sends a header of its own and is taken for 8.8.8.8. -/
theorem a_private_client_moves_its_key :
    ¬ ∀ (client : Peer) (via : List Peer) (header : List Char),
      (∀ p ∈ via, isProxy p.addr = true) → keyVia client via header = keyVia client via [] := by
  intro h
  have := h officeClient [dockerProxy] "8.8.8.8".toList (by decide)
  exact absurd this (by decide +kernel)

end Kervax
