import Vanilla.Client.Definitions

/-!
# Upstream — building a request

The part of `http1_1/upstream/upstream.v` and `exchange.v` that writes a request head: the Host
line a pool is built with, `request`, `header`, and what `send` adds before it starts to send.  A
V `string` is the list of its bytes.  The connection, the response and the limits of an exchange
are not part of it.
-/

namespace Vanilla.Upstream
open Scan Vanilla.Client

/-! ### The origin -/

/-- `Origin`: what the Host line is made of. -/
structure Origin where
  host : List UInt8
  port : Nat := 443
  https : Bool := true

/-- A byte no host may have. -/
def hostRefused (c : UInt8) : Bool :=
  c ≤ 0x20 || c ≥ 0x7f || (ascii "/?#@[],\\").contains c

/-- `valid_host`. -/
def validHost (s : List UInt8) : Bool :=
  !(s.length = 0 || s.length > 253) && s.all fun c => !hostRefused c

/-- One pass of `wi`'s loop; the state is `v` and the digits written. -/
def wiStep (s : Nat × List UInt8) : Turn (Nat × List UInt8) (List UInt8) :=
  let (v, d) := s
  if v = 0 then .exit d else .next (v / 10, (48 + v % 10).toUInt8 :: d)

/-- `wi`: the digits it appends. -/
def wi (n : Nat) : List UInt8 :=
  if n = 0 then [48] else loop wiStep (fun s => s.1) [] (n, [])

/-- `host_hdr`, as `Pool.new` builds it: an IPv6 literal in brackets and without its zone, and the
port where it is not the scheme's own. -/
def hostHdr (o : Origin) : List UInt8 :=
  let v6 := o.host.contains colon
  let host := if v6 then o.host.takeWhile (· != 37) else o.host
  ascii "Host: " ++ (if v6 then [91] else []) ++ host ++ (if v6 then [93] else []) ++
    (if o.port ≠ (if o.https then 443 else 80) then colon :: wi o.port else []) ++ crlf

/-! ### The exchange -/

/-- `Pool`: what its exchanges write. -/
structure Pool where
  hostHdr : List UInt8

/-- `Exchange`: the request it is building. -/
structure Exchange where
  pool : Pool
  head : List UInt8 := []
  body : List UInt8 := []
  headOk : Bool := false
  invalid : Bool := false
  isHead : Bool := false
  idempotent : Bool := false
  connClose : Bool := false

/-- `eq_ci`; `name` is lowercase. -/
def eqCi (s name : List UInt8) : Bool := s.map lower == name

/-- `has_ci`; `word` is lowercase. -/
def hasCi (v word : List UInt8) : Bool :=
  if v.length < word.length then false
  else
    (List.range (v.length - word.length + 1)).any fun i =>
      ((v.drop i).take word.length).map lower == word

/-- `idempotent_methods`. -/
def idempotentMethods : List (List UInt8) :=
  [ascii "GET", ascii "HEAD", ascii "OPTIONS", ascii "TRACE", ascii "PUT", ascii "DELETE"]

namespace Exchange

/-- `request`. -/
def request (x : Exchange) (method target : List UInt8) : Bool × Exchange :=
  let x := { x with head := [], headOk := false }
  if !validToken method || !validTarget target then (false, { x with invalid := true })
  else
    (true, { x with
      head := method ++ sp :: (target ++ (ascii " HTTP/1.1\r\n" ++ x.pool.hostHdr))
      isHead := method == ascii "HEAD"
      idempotent := idempotentMethods.contains method
      headOk := true })

/-- `header`. -/
def header (x : Exchange) (name value : List UInt8) : Bool × Exchange :=
  if !x.headOk || !validToken name || !validFieldValue value || eqCi name (ascii "host") ||
      eqCi name (ascii "content-length") || eqCi name (ascii "transfer-encoding") then
    (false, { x with invalid := true })
  else
    let x :=
      if eqCi name (ascii "connection") && hasCi value (ascii "close") then
        { x with connClose := true }
      else x
    (true, { x with head := x.head ++ (name ++ (ascii ": " ++ (value ++ crlf))) })

/-- A run of `header` calls that all returned true: the exchange behind them. -/
def headers (x : Exchange) (fs : List (List UInt8 × List UInt8)) : Option Exchange :=
  fs.foldlM (fun x f =>
    match x.header f.1 f.2 with
    | (true, x) => some x
    | (false, _) => none) x

/-- What `send` does to the head: Content-Length where there is a body, or the method starts with
`P`, and the blank line. -/
def finishHead (x : Exchange) : Exchange :=
  let length :=
    if 0 < x.body.length ∨ x.head.head? = some 80 then
      ascii "Content-Length: " ++ (wi x.body.length ++ crlf)
    else []
  { x with head := x.head ++ (length ++ crlf) }

end Exchange

end Vanilla.Upstream
