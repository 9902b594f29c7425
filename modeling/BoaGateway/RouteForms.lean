import BoaGateway.RouteCheck
import BoaGateway.RouteTables

/-!
# The forms for static routes

`formIPv6Route` and `formRoute` of `fmroute.c`. A request changes a chain of records and the
installed routes in steps, each of which may fail, and the results of some of which are not looked
at.
-/

namespace RouteForms

open ByteBlocks Texts TextFiles MibValue Netmask RouteTables

/-- `MAX_ROUTING_ENTRY_SIZE`. -/
def maxRoutingEntrySize : Nat := 32

/-- The functions that read addresses, the width of `long`, and the build options. -/
structure Setup where
  inetAton : Bytes → Option (Block 4)
  inetPton : Bytes → Bool
  inetAddr : Bytes → Option (BitVec 32)
  routeInetAddr : RouteCheck.InetAddr
  build : RouteCheck.Build
  defaultGatewayV2 : Bool

/-- `string_to_dec`. -/
def stringToDec (long : Long) (s : Bytes) : Option Int :=
  if s.all (isDigit 10) then some (s32 (min (readDigits 10 0 s) (2 ^ (long.width - 1) - 1)))
  else none

def parseMetric (long : Long) (str : Bytes) : Except Message Int :=
  if str = [] then .ok 0
  else
    match stringToDec long str with
    | none => .error .metric
    | some intVal => if intVal < 0 ∨ 16 < intVal then .error .invalidMetricRange else .ok intVal

def parseInterface (long : Long) (str : Bytes) : Except Message Int :=
  match stringToDec long str with
  | none => .error (.ifnameError str)
  | some intVal => .ok intVal

/-- The variables of a request. -/
abbrev Vars := String → Bytes

/-- `MIB_CE_IPV6_ROUTE_T`. -/
structure Ipv6Route where
  dstination : Bytes
  nextHop : Bytes
  enable : UInt8
  dstIfIndex : Nat
  fwMetric : Int
  instanceNum : Nat

def ipv6Kind : Kind Ipv6Route (Bytes × Bytes × Nat × Int) where
  on e := e.enable != 0
  key e := (e.dstination, e.nextHop, e.dstIfIndex, e.fwMetric)
  named e := e.dstination != []
  off := 0

/-- The loop of `checkIPv6Route` from record `i` on, which goes on behind one that cannot be
read. -/
def checkIPv6From (env : Env) (newEntry : Ipv6Route) : Nat → List Ipv6Route → Nat
  | _, [] => 1
  | i, e :: table =>
    if env.look i ∧ newEntry.dstination = e.dstination ∧ newEntry.nextHop = e.nextHop ∧
        newEntry.dstIfIndex = e.dstIfIndex ∧ newEntry.enable = e.enable ∧
        newEntry.fwMetric = e.fwMetric then 0
    else checkIPv6From env newEntry (i + 1) table

def checkIPv6Route (env : Env) (newEntry : Ipv6Route) (table : List Ipv6Route) : Nat :=
  checkIPv6From env newEntry 0 table

def parseIPv6 (setup : Setup) (var : Vars) : Except Message Ipv6Route := do
  let metric ← parseMetric setup.build.long (var "metric")
  let ifIndex ← parseInterface setup.build.long (var "interface")
  if var "nextHop" ≠ [] ∧ setup.inetPton (var "nextHop") = false then
    throw (.cantResolveNextHop (var "nextHop"))
  return { dstination := (var "destNet").take 45
           nextHop := (var "nextHop").take 45
           enable := if var "enable" = [] then 0 else 1
           dstIfIndex := u32OfInt ifIndex
           fwMetric := metric
           instanceNum := 0 }

abbrev V6State := State Ipv6Route (Bytes × Bytes × Nat × Int)

/-- The loop of `delAllV6Route`, from the last record to the first. -/
def deleteAllLoop (env : Env) : Nat → V6State → Reply × V6State
  | 0, s => (.ok, s)
  | i + 1, s =>
    match env.read s.table i with
    | none => (.error .errGetEntry, s)
    | some e =>
      if env.delete i then
        deleteAllLoop env i
          ⟨s.table.eraseIdx i, (ipv6Kind.cfgModify (env.remove i) e true s.installed).2⟩
      else (.error .deleteChainError, s)

/-- An update of a record that has been read. -/
def updateIPv6 (env : Env) (entry tmp : Ipv6Route) (idx : Nat) (s : V6State) : Reply × V6State :=
  let (_, installed) := ipv6Kind.cfgModify (env.remove idx) tmp true s.installed
  let entry := { entry with instanceNum := tmp.instanceNum }
  let (ret, installed) := ipv6Kind.cfgModify env.install entry false installed
  if ret = 0 then (.ok, ⟨env.chainUpdate entry idx s.table, installed⟩)
  else
    (.error .updateRouteFails,
      ⟨s.table, (ipv6Kind.cfgModify env.reinstall tmp false installed).2⟩)

/-- The loop of `updateV6Route`, which goes on behind a record that cannot be read. -/
def updateLoop (env : Env) (entry : Ipv6Route) (select : Bytes) (s : V6State) :
    Nat → Reply × V6State
  | 0 => (.ok, s)
  | idx + 1 =>
    if select = label idx then
      if checkIPv6Route env entry s.table = 0 then (.error .invalidRule, s)
      else
        match env.read s.table idx with
        | none => updateLoop env entry select s idx
        | some tmp => updateIPv6 env entry tmp idx s
    else updateLoop env entry select s idx

def addIPv6 (env : Env) (entry : Ipv6Route) (s : V6State) : Reply × V6State :=
  if checkIPv6Route env entry s.table = 0 then (.error .routeExisted, s)
  else
    let (ret, installed) := ipv6Kind.cfgModify env.install entry false s.installed
    if ret = 0 then
      let (intVal, table) := env.chainAdd maxRoutingEntrySize entry s.table
      if intVal = 0 then (.error .addChainError, ⟨table, installed⟩)
      else if intVal = -1 then (.error .tableFull, ⟨table, installed⟩)
      else (.ok, ⟨table, installed⟩)
    else (.error .addingRouteFails, ⟨s.table, installed⟩)

def formIPv6Route (setup : Setup) (env : Env) (var : Vars) (s : V6State) : Reply × V6State :=
  if var "delV6Route" ≠ [] then ipv6Kind.deleteSelected env (var "select") s
  else if var "delAllV6Route" ≠ [] then deleteAllLoop env s.table.length s
  else
    match parseIPv6 setup var with
    | .error message => (.error message, s)
    | .ok entry =>
      if var "updateV6Route" ≠ [] then updateLoop env entry (var "select") s s.table.length
      else if var "addV6Route" ≠ [] then addIPv6 env entry s
      else (.ok, s)

/-- `MIB_CE_IP_ROUTE_T`. -/
structure IpRoute where
  route : RouteCheck.Route
  fwMetric : Int
  instanceNum : Nat

def ipKind : Kind IpRoute (Block 4 × Block 4 × Block 4 × UInt32 × Int) where
  on e := e.route.enable != 0
  key e := (e.route.destID, e.route.netMask, e.route.nextHop, e.route.ifIndex, e.fwMetric)
  named e := e.route.destID != Block.zeros 4
  off := -1

/-- `inet_aton` into a field, where there is a text. -/
def parseAddress (setup : Setup) (str : Bytes) (message : Message) : Except Message (Block 4) :=
  match setup.inetAton str with
  | none => .error message
  | some a => .ok a

def parseIP (setup : Setup) (var : Vars) : Except Message IpRoute := do
  let destID ← parseAddress setup (var "destNet") (.cantResolveDest (var "destNet"))
  let netMask ←
    if var "subMask" = [] then pure (Block.zeros 4)
    else if isValidNetmask setup.inetAddr setup.build.long (var "subMask") true then
      parseAddress setup (var "subMask") (.cantResolveMask (var "subMask"))
    else throw (.invalidSubnetMask (var "subMask"))
  let metric ← parseMetric setup.build.long (var "metric")
  let ifIndex ← parseInterface setup.build.long (var "interface")
  let nextHop ←
    if var "nextHop" = [] then pure (Block.zeros 4)
    else parseAddress setup (var "nextHop") (.cantResolveNextHop (var "nextHop"))
  return { route :=
             { destID := destID
               netMask := netMask
               nextHop := nextHop
               enable := if var "enable" = [] then 0 else 1
               type := 0
               sourceIP := Block.zeros 4
               ifIndex := UInt32.ofNat (u32OfInt ifIndex) }
           fwMetric := metric
           instanceNum := 0 }

abbrev V4State := State IpRoute (Block 4 × Block 4 × Block 4 × UInt32 × Int)

/-- The loop of `checkRoute` from record `i` on, for which one that cannot be read is as good as
the route itself. -/
def checkFrom (setup : Setup) (env : Env) (rtEntry : RouteCheck.Route) (idx : Int) :
    Nat → List IpRoute → Nat
  | _, [] => 1
  | i, e :: table =>
    if (i : Int) = idx then checkFrom setup env rtEntry idx (i + 1) table
    else if env.look i = false then 0
    else if RouteCheck.sameAs setup.routeInetAddr setup.build rtEntry e.route then 0
    else checkFrom setup env rtEntry idx (i + 1) table

def checkIP (setup : Setup) (env : Env) (table : List IpRoute) (entry : IpRoute) (idx : Int) :
    Nat :=
  checkFrom setup env entry.route idx 0 table

theorem checkFrom_answered (setup : Setup) {env : Env} (hlook : ∀ i, env.look i = true)
    (rtEntry : RouteCheck.Route) (idx : Int) (i : Nat) (table : List IpRoute) :
    checkFrom setup env rtEntry idx i table =
      RouteCheck.checkFrom setup.routeInetAddr setup.build rtEntry idx i
        (table.map IpRoute.route) := by
  induction table generalizing i with
  | nil => rfl
  | cons e table ih =>
    have hread : ¬ env.look i = false := by
      rw [hlook i]
      decide
    rw [checkFrom, List.map_cons, RouteCheck.checkFrom, ih, if_neg hread]

/-- When all reads are answered, the answer is that of `checkRoute` for a table that is read. -/
theorem checkIP_answered (setup : Setup) {env : Env} (hlook : ∀ i, env.look i = true)
    (table : List IpRoute) (entry : IpRoute) (idx : Int) :
    checkIP setup env table entry idx =
      RouteCheck.checkRoute setup.routeInetAddr setup.build (table.map IpRoute.route) entry.route
        idx :=
  checkFrom_answered setup hlook entry.route idx 0 table

/-- An update of the record at an index. Where the record was not read, it must not be put back. -/
def updateIP (setup : Setup) (env : Env) (entry : IpRoute) (idx : Nat) (s : V4State) :
    Option (Reply × V4State) :=
  let tmp := env.read s.table idx
  let (installed, entry) :=
    match tmp with
    | none => (s.installed, entry)
    | some tmp =>
      ((ipKind.cfgModify (env.remove idx) tmp true s.installed).2,
        { entry with instanceNum := tmp.instanceNum })
  if checkIP setup env s.table entry idx = 0 then
    tmp.map fun tmp =>
      (.error .invalidRule, ⟨s.table, (ipKind.cfgModify env.reinstall tmp false installed).2⟩)
  else
    some (.ok, ⟨env.chainUpdate entry idx s.table,
      (ipKind.cfgModify env.install entry false installed).2⟩)

def addIP (setup : Setup) (env : Env) (entry : IpRoute) (s : V4State) : Reply × V4State :=
  if checkIP setup env s.table entry (-1) = 0 then (.error .invalidRule, s)
  else
    let (intVal, table) := env.chainAdd maxRoutingEntrySize entry s.table
    if intVal = 0 then (.error .addChainError, ⟨table, s.installed⟩)
    else if intVal = -1 then (.error .tableFull, ⟨table, s.installed⟩)
    else (.ok, ⟨table, (ipKind.cfgModify env.install entry false s.installed).2⟩)

/-- `formRoute`. The default gateway is kept elsewhere; `mib_set` is answered as an update. -/
def formRoute (setup : Setup) (env : Env) (var : Vars) (s : V4State) : Option (Reply × V4State) :=
  if setup.defaultGatewayV2 ∧ var "dgwSet" ≠ [] then
    some (if env.update then .ok else .error .setMibError, s)
  else if var "delRoute" ≠ [] then some (ipKind.deleteSelected env (var "select") s)
  else
    match parseIP setup var with
    | .error message => some (.error message, s)
    | .ok entry =>
      if var "updateRoute" ≠ [] then
        match findLabel s.table.length (var "select") with
        | none => some (.ok, s)
        | some idx => updateIP setup env entry idx s
      else if var "addRoute" ≠ [] then some (addIP setup env entry s)
      else some (.ok, s)

end RouteForms
