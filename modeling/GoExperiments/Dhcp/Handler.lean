import GoExperiments.Lib.GoMap
import GoExperiments.Dhcp.Addr

/-!
# The handler of `opendhcpd`

The model of `opendhcpd/dhcpv4` (`dhcp_handler.go`, `dhcp_internal.go`,
`dhcp_errors.go`) and of `helper.Localip`.

* `new` is `dhcpv4.New`: the checks it makes on its arguments, in order, with
  their error texts, and `newDHCPv4Handler`, which builds the handler with an
  empty lease table.
* `serveDHCP` is `Handler.ServeDHCP`, one branch a message type.  What the code
  reads besides the message is explicit: the clock, the random draw behind
  `rand.Intn`, and the order in which a loop over the lease map visits it
  (`Choices`).  A panic is an error result.
* `freeLease` is the circular scan for a free lease number.

Log lines are left out.  `dhcp4.ReplyPacket` is not evaluated: a `Reply` is the
list of the arguments it is called with.
-/

namespace Dhcp

open Go

/-- A DHCP options map, by option code. -/
abbrev Options := GoMap.Map UInt8 Bytes

def optionSubnetMask : UInt8 := 1
def optionRouter : UInt8 := 3
def optionDomainNameServer : UInt8 := 6
def optionDomainName : UInt8 := 15
def optionRequestedIPAddress : UInt8 := 50
def optionServerIdentifier : UInt8 := 54
def optionParameterRequestList : UInt8 := 55

/-- `dhcp4.MessageType`. -/
inductive MessageType where
  | discover | offer | request | decline | ack | nak | release | inform
  deriving DecidableEq, Repr

/-- A lease: who holds it, by the text of the hardware address, and until when,
in nanoseconds. -/
structure Lease where
  nic : String
  expiry : ℤ
  deriving DecidableEq

/-- The lease table: lease number to lease. -/
abbrev Leases := GoMap.Map ℤ Lease

/-- `dhcpv4.Handler`.  `ip` is empty when the local address is not an IPv4 one. -/
structure Handler where
  ip : Bytes
  options : Options
  start : IPv4
  leaseRange : ℤ
  leaseDuration : ℤ
  leases : Leases
  deriving DecidableEq

/-- `dhcpCtx`. -/
structure DhcpCtx where
  bindIP : Bytes
  routerIP : IPv4
  dnsIP : IPv4
  subnetMask : IPv4
  startIP : IPv4
  numLeaseMax : ℤ
  leaseDuration : ℤ
  domainName : String

/-- `newDHCPv4Handler`: the handler starts with no lease. -/
def newDHCPv4Handler (dhcpIo : DhcpCtx) : Handler where
  ip := dhcpIo.bindIP
  start := dhcpIo.startIP
  leaseDuration := dhcpIo.leaseDuration
  leaseRange := dhcpIo.numLeaseMax
  leases := ∅
  options := (((((∅ : Options).insert optionSubnetMask (IPv4.bytes dhcpIo.subnetMask)).insert
    optionRouter (IPv4.bytes dhcpIo.routerIP)).insert
    optionDomainNameServer (IPv4.bytes dhcpIo.dnsIP)).insert
    optionDomainName dhcpIo.domainName.toUTF8.toList)

/-! ## The constructor -/

/-- A network interface, as `helper.Localip` looks at it. -/
structure Interface where
  up : Bool
  loopback : Bool
  addrs : Except String (List Bytes)

/-- What the constructor uses of the machine and of Go's library: the network
interfaces, `net.ParseIP` (`none` is the nil result) and the two classes of
letters of `unicode`. -/
structure Host where
  interfaces : Except String (List Interface)
  parseIP : String → Option Bytes
  isLetter : Char → Bool
  isNumber : Char → Bool

/-- The loop of `helper.Localip`.  An interface whose addresses cannot be read
fails the call, even when it is down. -/
def localipLoop : List Interface → Except String Bytes
  | [] => .error "valid IP address not found for all network interfaces"
  | nif :: nifs =>
      match nif.addrs with
      | .error err => .error err
      | .ok addrs =>
          if !nif.up || nif.loopback then localipLoop nifs
          else match addrs.find? isGlobalUnicast with
            | some ip => .ok ip
            | none => localipLoop nifs

/-- `helper.Localip`. -/
def localip (host : Host) : Except String Bytes :=
  match host.interfaces with
  | .error err => .error err
  | .ok nifs => localipLoop nifs

def errFailParseStartIP : String := "failed to parse start IP address"
def errFailParseDefaultGatewayIP : String := "failed to parse default gateway IP address"
def errFailParseDNSIP : String := "failed to parse DNS IP address"
def errFailParseNetmaskIP : String := "failed to parse netmask IP address"
def errNegativeLeaseSec : String :=
  "lease duration must be > 0 seconds. ideally, keep it above 7200 seconds"
def errInvalidDomainName : String :=
  "invalid domain name was provided. ideally, use non-unicode (for now) domain names"

/-- `strings.TrimFunc`. -/
def trimFunc (f : Char → Bool) (s : String) : String :=
  String.ofList (((s.toList.dropWhile f).reverse.dropWhile f).reverse)

/-- `net.ParseIP(s).To4()`, with the constructor's error text for a nil result. -/
def parse4 (host : Host) (s err : String) : Except String IPv4 :=
  match (host.parseIP s).bind to4 with
  | some ip => .ok ip
  | none => .error err

/-- The arguments of `dhcpv4.New`. -/
structure NewArgs where
  start : String
  router : String
  netmask : String
  dns : String
  max : ℤ
  leaseSec : ℤ
  domainName : String

/-- `dhcpv4.New`.  Every argument is checked but `max`. -/
def new (host : Host) (a : NewArgs) : Except String Handler := do
  let l ← localip host
  let si ← parse4 host a.start errFailParseStartIP
  let r ← parse4 host a.router errFailParseDefaultGatewayIP
  let d ← parse4 host a.dns errFailParseDNSIP
  let sm ← parse4 host a.netmask errFailParseNetmaskIP
  if a.leaseSec ≤ 0 then throw errNegativeLeaseSec
  let dn := trimFunc (fun c => !host.isLetter c && !host.isNumber c) a.domainName
  if dn.isEmpty then throw errInvalidDomainName
  return newDHCPv4Handler
    { bindIP := ((to4 l).map IPv4.bytes).getD []
      routerIP := r
      dnsIP := d
      subnetMask := sm
      startIP := si
      numLeaseMax := a.max
      leaseDuration := int64 (a.leaseSec * second)
      domainName := dn }

/-! ## Serving a message -/

/-- What the handler reads of a packet. -/
structure Packet where
  ciaddr : IPv4
  chaddr : Bytes
  deriving DecidableEq

/-- A message as `dhcp4` hands it to the handler. -/
structure Message where
  packet : Packet
  msgType : MessageType
  options : Options
  deriving DecidableEq

/-- What a call of the handler reads besides the message: the clock, the draw
behind `rand.Intn`, and the order of its loop over the lease map. -/
structure Choices where
  now : ℤ
  rand : ℕ
  order : List (GoMap.Entry ℤ Lease)
  deriving DecidableEq

/-- The arguments of a call of `dhcp4.ReplyPacket`. -/
structure Reply where
  req : Packet
  msgType : MessageType
  serverId : Bytes
  yIAddr : Option IPv4
  leaseDuration : ℤ
  options : List (UInt8 × Bytes)
  deriving DecidableEq

/-- `Options.SelectOrderOrAll` of `dhcp4`, which picks the options of a reply. -/
abbrev SelectOrderOrAll := Options → Option Bytes → List (UInt8 × Bytes)

/-- The text under which the sender of a message is known. -/
def Message.nic (m : Message) : String := hardwareAddrString m.packet.chaddr

/-- The requested address: the option if it is there, else the client's own
address. -/
def Message.reqIP (m : Message) : Bytes :=
  (m.options.lookup optionRequestedIPAddress).getD (IPv4.bytes m.packet.ciaddr)

/-- A `Request` that names another server is not for this one. -/
def Message.forUs (m : Message) (ip : Bytes) : Bool :=
  match m.options.lookup optionServerIdentifier with
  | some server => ipEqual server ip
  | none => true

/-- `rand.Intn`: a draw below `n`, and a panic when there is none. -/
def intn (n : ℤ) (rand : ℕ) : Except String ℤ :=
  if n ≤ 0 then .error "invalid argument to Intn" else .ok ((rand : ℤ) % n)

/-- The numbers of the loop `for i := lo; i < hi; i++`. -/
def intRange (lo hi : ℤ) : List ℤ := (List.range (hi - lo).toNat).map fun k : ℕ => lo + (k : ℤ)

/-- A lease number is free when it has no lease or one that expired before `now`. -/
def isFree (leases : Leases) (now i : ℤ) : Bool :=
  match leases.lookup i with
  | none => true
  | some l => decide (l.expiry < now)

/-- The two loops of `Handler.freeLease`: from the random start `b` to the end,
then from `0` to `b`. -/
def freeLeaseFrom (h : Handler) (now b : ℤ) : ℤ :=
  (([(b, h.leaseRange), (0, b)].flatMap fun v => intRange v.1 v.2).find?
    (isFree h.leases now)).getD (-1)

/-- `Handler.freeLease`. -/
def freeLease (h : Handler) (now : ℤ) (rand : ℕ) : Except String ℤ := do
  let b ← intn h.leaseRange rand
  return freeLeaseFrom h now b

/-- The lease number a `Discover` is answered with: the client's previous lease
if the loop over the map meets one, else a free one, else none. -/
def discoverLease (h : Handler) (c : Choices) (nic : String) : Except String (Option ℤ) :=
  match GoMap.firstKey (fun l : Lease => l.nic == nic) c.order with
  | some i => .ok (some i)
  | none => do
      let free ← freeLease h c.now c.rand
      return if free = -1 then none else some free

/-- The number a `Request` asks for, when the requested address is a usable
IPv4 address inside the pool. -/
def requestLease (h : Handler) (m : Message) : Option ℤ :=
  let reqIP := m.reqIP
  if reqIP.length = 4 ∧ ipEqual reqIP ipv4zero = false then
    let leaseNum := ipRange h.start (bigEndianUint32 reqIP) - 1
    if 0 ≤ leaseNum ∧ leaseNum < h.leaseRange then some leaseNum else none
  else none

/-- A `Request` is granted when the number it asks for has no lease, or one of
the same client: the expiry is not looked at. -/
def grantable (leases : Leases) (nic : String) (leaseNum : ℤ) : Bool :=
  match leases.lookup leaseNum with
  | none => true
  | some l => l.nic == nic

/-- The reply to a `Discover` that is offered the lease number `free`. -/
def offerReply (sel : SelectOrderOrAll) (h : Handler) (m : Message) (free : ℤ) : Reply :=
  ⟨m.packet, .offer, h.ip, some (ipAdd h.start free), h.leaseDuration,
    sel h.options (m.options.lookup optionParameterRequestList)⟩

/-- The reply to a `Request` that is granted: the address is the requested one. -/
def ackReply (sel : SelectOrderOrAll) (h : Handler) (m : Message) : Reply :=
  ⟨m.packet, .ack, h.ip, some (bigEndianUint32 m.reqIP), h.leaseDuration,
    sel h.options (m.options.lookup optionParameterRequestList)⟩

/-- The reply to a `Request` that is refused. -/
def nakReply (h : Handler) (m : Message) : Reply := ⟨m.packet, .nak, h.ip, none, 0, []⟩

/-- The handler after a granted `Request`. -/
def Handler.grant (h : Handler) (leaseNum : ℤ) (nic : String) (now : ℤ) : Handler :=
  { h with leases := h.leases.insert leaseNum ⟨nic, now + h.leaseDuration⟩ }

/-- The handler after one lease is deleted. -/
def Handler.delete (h : Handler) (i : ℤ) : Handler := { h with leases := h.leases.erase i }

/-- `Handler.ServeDHCP`. -/
def serveDHCP (sel : SelectOrderOrAll) (h : Handler) (c : Choices) (m : Message) :
    Except String (Handler × Option Reply) :=
  match m.msgType with
  | .discover =>
      match discoverLease h c m.nic with
      | .error err => .error err
      | .ok none => .ok (h, none)
      | .ok (some free) => .ok (h, some (offerReply sel h m free))
  | .request =>
      if m.forUs h.ip = false then .ok (h, none)
      else
        match requestLease h m with
        | none => .ok (h, some (nakReply h m))
        | some leaseNum =>
            if grantable h.leases m.nic leaseNum then
              .ok (h.grant leaseNum m.nic c.now, some (ackReply sel h m))
            else .ok (h, some (nakReply h m))
  | .release | .decline =>
      -- the loop stops at the first lease of the client it meets
      match GoMap.firstKey (fun l : Lease => l.nic == m.nic) c.order with
      | some i => .ok (h.delete i, none)
      | none => .ok (h, none)
  | _ => .ok (h, none)

end Dhcp
