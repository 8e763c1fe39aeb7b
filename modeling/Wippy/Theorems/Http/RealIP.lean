import Wippy.Http.RealIP

/-! Which peers cannot choose the address that the next handler sees. A list without a valid subnet is an empty list,
    which stands for trust in every peer. -/

namespace Wippy.RealIP
open Lib List

variable {IP : Type} {net : Net IP} {options : Map Bytes Bytes} {remoteAddr : Bytes} {network : IP → Bool}
  {networks : List (IP → Bool)}

section Statements
variable (net) (options) (remoteAddr)

/-- The peer's address is in the network. -/
def Within (network : IP → Bool) : Prop :=
  ∃ ip, net.parseIP ((net.splitHostPort remoteAddr).getD remoteAddr) = some ip ∧ network ip = true

/-- The peer lies outside every valid subnet that is listed, or outside loopback if no list is given. -/
def Outside : Prop :=
  ∀ network ∈ parseTrustedSubnets net (if subnetsStr options = [] then text "127.0.0.0/8,::1/128"
    else subnetsStr options),
    ¬ Within net remoteAddr network

/-- The next handler sees the address of the peer, whatever the headers of two requests are. -/
def KeepsAddress : Prop :=
  ∀ header header', (createRealIPMiddleware net options ⟨remoteAddr, header⟩).remoteAddr = remoteAddr ∧
    (createRealIPMiddleware net options ⟨remoteAddr, header'⟩).remoteAddr = remoteAddr

end Statements

theorem shouldTrust_eq_false_iff : shouldTrust net remoteAddr networks = false ↔
    networks ≠ [] ∧ ∀ network ∈ networks, ¬ Within net remoteAddr network := by
  unfold shouldTrust Within
  split
  next hnil => simp [hnil]
  next hne =>
    cases net.parseIP ((net.splitHostPort remoteAddr).getD remoteAddr) with
    | none => simp [hne]
    | some ip => simp [hne]

theorem extractRealIP_trueClientIP {address : Bytes} (hne : address ≠ []) (hvalid : (net.parseIP address).isSome) :
    extractRealIP net ⟨remoteAddr, AList.insert trueClientIP [address] ∅⟩ = address := by
  have hget : Request.get ⟨remoteAddr, AList.insert trueClientIP [address] ∅⟩ trueClientIP = address := by
    rw [Request.get, AList.lookup_insert]
    rfl
  unfold extractRealIP
  rw [hget, if_pos hne]
  simp [hne, Option.isSome_iff_ne_none.mp hvalid]

/-- A peer keeps its address if and only if it is not trusted: of a trusted one every address is taken. -/
theorem keepsAddress_iff (hall : trustAll options = false) :
    KeepsAddress net options remoteAddr ↔ shouldTrust net remoteAddr (trustedSubnets net options) = false := by
  unfold KeepsAddress createRealIPMiddleware
  simp only [hall, Bool.false_or]
  cases htrust : shouldTrust net remoteAddr (trustedSubnets net options) with
  | false => simp
  | true =>
    obtain ⟨a, b, hne, ⟨ha, hparse⟩, hb, hparse'⟩ := net.addresses
    refine iff_of_false (fun h => hne ?_) nofun
    obtain ⟨hseen, hseen'⟩ := h (AList.insert trueClientIP [a] ∅) (AList.insert trueClientIP [b] ∅)
    rw [if_pos rfl, extractRealIP_trueClientIP ha hparse, if_pos ha] at hseen
    rw [if_pos rfl, extractRealIP_trueClientIP hb hparse', if_pos hb] at hseen'
    exact hseen.trans hseen'.symm

/-- A peer outside the listed subnets keeps its address if and only if some subnet is trusted at all and, where the
    default list is used, the peer is outside that one. -/
theorem untrusted_peer_keeps_address_iff (hall : trustAll options = false) (houtside : Outside net options remoteAddr) :
    KeepsAddress net options remoteAddr ↔ trustedSubnets net options ≠ [] ∧
      (subnetsStr options = [] →
        ∀ network ∈ parseTrustedSubnets net defaultTrustedSubnets, ¬ Within net remoteAddr network) := by
  rw [keepsAddress_iff hall, shouldTrust_eq_false_iff]
  refine and_congr_right fun _ => ?_
  unfold Outside at houtside
  unfold trustedSubnets
  rw [hall]
  by_cases hgiven : subnetsStr options = []
  · simp [hgiven]
  · simpa [hgiven] using houtside

/-- A decimal number of at most three digits. -/
def number (s : Bytes) : Option Nat :=
  if s = [] || 3 < s.length || (decide (1 < s.length) && s.head? == some 48) || s.any fun b => b < 48 || 57 < b then
    none
  else some (s.foldl (fun n b => 10 * n + (b.toNat - 48)) 0)

/-- An IPv4 address. -/
def parseIPv4 (s : Bytes) : Option Nat :=
  match (s.splitOn 46).map number with
  | [some a, some b, some c, some d] =>
    if a < 256 && b < 256 && c < 256 && d < 256 then some (((a * 256 + b) * 256 + c) * 256 + d) else none
  | _ => none

/-- Networks of IPv4 addresses only. -/
def ipv4 : Net Nat where
  splitHostPort s :=
    match s.splitOn 58 with
    | [host, _] => some host
    | _ => none
  parseIP := parseIPv4
  parseCIDR s := do
    let (address, bits) ← cutByte 47 s
    let base ← parseIPv4 address
    let bits ← number bits
    if 32 < bits then none else some fun ip => ip >>> (32 - bits) == base >>> (32 - bits)
  addresses := ⟨text "1.2.3.4", text "5.6.7.8", by decide⟩

/-- A peer outside of a subnet that is listed with a malformed one keeps its address. -/
theorem listed_subnet_keeps_address :
    KeepsAddress ipv4 (AList.singleton optionTrustedSubnets (text "bogus, 10.0.0.0/8")) (text "1.2.3.4:80") := by
  have hdistrust : shouldTrust ipv4 (text "1.2.3.4:80") (parseTrustedSubnets ipv4 (text "bogus, 10.0.0.0/8")) =
    false := by
    decide
  have houtside : Outside ipv4 (AList.singleton optionTrustedSubnets (text "bogus, 10.0.0.0/8")) (text "1.2.3.4:80") :=
    (shouldTrust_eq_false_iff.mp hdistrust).2
  exact (untrusted_peer_keeps_address_iff (by decide) houtside).mpr ⟨by decide, fun hnil => absurd hnil (by decide)⟩

/-- With nothing but a malformed subnet listed, a peer outside of every valid one is trusted. -/
theorem malformed_subnet_trusts_all : ¬ ∀ (options : Map Bytes Bytes) (remoteAddr : Bytes), trustAll options = false →
    Outside ipv4 options remoteAddr → KeepsAddress ipv4 options remoteAddr := by
  intro h
  have hnone : parseTrustedSubnets ipv4 (text "bogus") = [] := by decide
  have houtside : ∀ network ∈ parseTrustedSubnets ipv4 (text "bogus"), ¬ Within ipv4 (text "1.2.3.4:80") network := by
    simp [hnone]
  have hkeeps := h (AList.singleton optionTrustedSubnets (text "bogus")) (text "1.2.3.4:80") (by decide) houtside
  rw [keepsAddress_iff (by decide)] at hkeeps
  revert hkeeps
  decide

end Wippy.RealIP
