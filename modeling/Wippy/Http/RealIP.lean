import Wippy.Lib.ByteOrder
import Wippy.Pid

/-! The middleware that takes the address of the client from the headers, `service/http/middleware/realip/realip.go`.
    What the source calls of the package `net` is a parameter. -/

namespace Wippy.RealIP
open Lib

/-- The functions of `net` that are called; a network is given by its `Contains`. More than one text is an address. -/
structure Net (IP : Type) where
  splitHostPort : Bytes → Option Bytes
  parseIP : Bytes → Option IP
  parseCIDR : Bytes → Option (IP → Bool)
  addresses : ∃ a b : Bytes, a ≠ b ∧ (a ≠ [] ∧ (parseIP a).isSome) ∧ b ≠ [] ∧ (parseIP b).isSome

def text (s : String) : Bytes := s.toUTF8.data.toList

def optionTrustedSubnets : Bytes := text "real_ip.trusted.subnets"

def optionTrustAll : Bytes := text "real_ip.trust_all"

def legacyTrustedSubnets : Bytes := text "trusted_subnets"

/-! The names of the headers are in the canonical form in which `Get` looks for them. -/

def trueClientIP : Bytes := text "True-Client-Ip"

def xRealIP : Bytes := text "X-Real-Ip"

def xForwardedFor : Bytes := text "X-Forwarded-For"

def defaultTrustedSubnets : Bytes :=
  text "127.0.0.0/8,10.0.0.0/8,172.16.0.0/12,192.168.0.0/16,169.254.0.0/16,100.64.0.0/10,::1/128,fc00::/7,fe80::/10"

def getOption (options : Map Bytes Bytes) (newKey legacyKey : Bytes) : Bytes :=
  (options.lookup newKey).getD ((options.lookup legacyKey).getD [])

structure Request where
  remoteAddr : Bytes
  header : Map Bytes (List Bytes)

def Request.get (r : Request) (name : Bytes) : Bytes := ((r.header.lookup name).getD []).headD []

variable {IP : Type} (net : Net IP)

def parseTrustedSubnets (subnets : Bytes) : List (IP → Bool) :=
  if subnets = [] then []
  else
    (subnets.splitOn 44).filterMap fun cidr => if trimSpace cidr = [] then none else net.parseCIDR (trimSpace cidr)

def shouldTrust (remoteAddr : Bytes) (trustedSubnets : List (IP → Bool)) : Bool :=
  if trustedSubnets = [] then true
  else
    match net.parseIP ((net.splitHostPort remoteAddr).getD remoteAddr) with
    | none => false
    | some ip => trustedSubnets.any fun network => network ip

def extractRealIP (r : Request) : Bytes :=
  let ip :=
    if r.get trueClientIP ≠ [] then r.get trueClientIP
    else if r.get xRealIP ≠ [] then r.get xRealIP
    else if r.get xForwardedFor ≠ [] then
      trimSpace (((cutByte 44 (r.get xForwardedFor)).map Prod.fst).getD (r.get xForwardedFor))
    else []
  if ip = [] || (net.parseIP ip).isNone then [] else ip

variable (options : Map Bytes Bytes)

def trustAll : Bool := (options.lookup optionTrustAll).getD [] = text "true"

def subnetsStr : Bytes := getOption options optionTrustedSubnets legacyTrustedSubnets

def trustedSubnets : List (IP → Bool) :=
  if trustAll options then []
  else parseTrustedSubnets net (if subnetsStr options = [] then defaultTrustedSubnets else subnetsStr options)

/-- The request that the next handler gets. -/
def createRealIPMiddleware (r : Request) : Request :=
  if trustAll options || shouldTrust net r.remoteAddr (trustedSubnets net options) then
    if extractRealIP net r ≠ [] then { r with remoteAddr := extractRealIP net r } else r
  else r

end Wippy.RealIP
