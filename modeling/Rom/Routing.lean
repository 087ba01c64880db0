import Rom.Bytes
import Rom.FirstMax
import Mathlib.Data.List.Sort
import Mathlib.Algebra.Order.Ring.Unbundled.Rat
import Std.Data.ExtTreeMap

/-!
Routes to other nodes (`route_table.h`, `route_table.cpp`, `router.h`, `router.cpp`):
for each path hash the next hops with their weights, which grow when a hop delivers
and shrink when it fails or with time. Weights and latencies, which the source keeps
as floating-point numbers, are exact rationals here.
-/
namespace Rom
open Std

structure Route where
  nextHopNodeId : UInt16
  weight : ℚ
  latencyEmaUs : ℚ := 0
  successCount : UInt32 := 0
  failureCount : UInt32 := 0
  lastSuccessUs : UInt64 := 0
  lastFailureUs : UInt64 := 0
  deriving DecidableEq

structure RouteTable where
  routes : ExtTreeMap UInt32 (List Route) := ∅

namespace RouteTable

def findRoute (t : RouteTable) (pathHash : UInt32) (nextHop : UInt16) : Option Route :=
  match t.routes[pathHash]? with
  | none => none
  | some routes => routes.find? (fun r => r.nextHopNodeId == nextHop)

/-- A route that is already there is left as it is. -/
def addRoute (t : RouteTable) (pathHash : UInt32) (nextHop : UInt16) (initialWeight : ℚ) : RouteTable :=
  match t.findRoute pathHash nextHop with
  | some _ => t
  | none =>
    { t with
      routes := t.routes.insert pathHash
        (t.routes.getD pathHash [] ++ [{ nextHopNodeId := nextHop, weight := initialWeight }]) }

def removeRoute (t : RouteTable) (pathHash : UInt32) (nextHop : UInt16) : RouteTable :=
  match t.routes[pathHash]? with
  | none => t
  | some routes =>
    let kept := routes.filter (fun r => r.nextHopNodeId != nextHop)
    if kept.length = routes.length then t
    else if kept.isEmpty then { t with routes := t.routes.erase pathHash }
    else { t with routes := t.routes.insert pathHash kept }

/-- A path that is left without routes is taken out. -/
def removeNode (t : RouteTable) (nodeId : UInt16) : RouteTable :=
  { t with
    routes := (t.routes.map (fun _ routes => routes.filter (fun r => r.nextHopNodeId != nodeId))).filter
      (fun _ routes => !routes.isEmpty) }

/-- The routes of a path, the heaviest first. -/
def getRoutes (t : RouteTable) (pathHash : UInt32) : List Route :=
  (t.routes.getD pathHash []).insertionSort (fun a b => a.weight ≥ b.weight)

/-- The first of the heaviest routes of a path. -/
def bestRoute (t : RouteTable) (pathHash : UInt32) : Option Route :=
  match t.routes[pathHash]? with
  | none => none
  | some [] => none
  | some (route :: routes) => some (FirstMax.firstMax Route.weight route routes)

/-- The routes of a path with at least a weight, the heaviest first. -/
def routesAbove (t : RouteTable) (pathHash : UInt32) (minWeight : ℚ) : List Route :=
  ((t.routes.getD pathHash []).filter (fun r => r.weight ≥ minWeight)).insertionSort (fun a b => a.weight ≥ b.weight)

/-- The latency is a moving average that starts with the first sample. -/
def Route.succeed (r : Route) (rttUs : UInt32) : Route :=
  { r with
    successCount := r.successCount + 1
    lastSuccessUs := UInt64.ofNat rttUs.toNat
    latencyEmaUs := if r.latencyEmaUs = 0 then rttUs.toNat else 3/10 * rttUs.toNat + (1 - 3/10) * r.latencyEmaUs }

def onSuccess (t : RouteTable) (pathHash : UInt32) (viaNode : UInt16) (rttUs : UInt32) : RouteTable :=
  match t.routes[pathHash]? with
  | none => t
  | some routes =>
    { t with
      routes := t.routes.insert pathHash
        (routes.modify (routes.findIdx (fun r => r.nextHopNodeId == viaNode)) (fun r => Route.succeed r rttUs)) }

def onFailure (t : RouteTable) (pathHash : UInt32) (viaNode : UInt16) : RouteTable :=
  match t.routes[pathHash]? with
  | none => t
  | some routes =>
    { t with
      routes := t.routes.insert pathHash
        (routes.modify (routes.findIdx (fun r => r.nextHopNodeId == viaNode))
          (fun r => { r with failureCount := r.failureCount + 1 })) }

def decayAll (t : RouteTable) (decayFactor : ℚ) : RouteTable :=
  { t with
    routes := t.routes.map (fun _ routes => routes.map (fun r => { r with weight := r.weight * decayFactor })) }

end RouteTable

structure RouterConfig where
  successIncrement : ℚ := 1/10
  failureDecrement : ℚ := 1/5
  decayFactor : ℚ := 995/1000
  minRouteWeight : ℚ := 1/10
  maxRoutesPerPath : UInt8 := 3
  minWeight : ℚ := 1/100
  maxWeight : ℚ := 1
  deriving DecidableEq

structure Router where
  localNodeId : UInt16
  config : RouterConfig := {}
  table : RouteTable := {}
  localPaths : List UInt32 := []

namespace Router

def clampWeight (r : Router) (w : ℚ) : ℚ :=
  if w < r.config.minWeight then r.config.minWeight
  else if w > r.config.maxWeight then r.config.maxWeight
  else w

def announcePath (r : Router) (pathHash : UInt32) : Router :=
  if r.localPaths.contains pathHash then r else { r with localPaths := r.localPaths ++ [pathHash] }

/-- A route is not learned when it leads back, or when the path has its routes and
    the lightest of them is still heavy enough. -/
def learnRoute (r : Router) (pathHash : UInt32) (viaNode : UInt16) : Router :=
  if viaNode = r.localNodeId then r
  else
    let existing := r.table.getRoutes pathHash
    let full := existing.length ≥ r.config.maxRoutesPerPath.toNat &&
      existing.getLast?.any (fun worst => worst.weight ≥ r.config.minRouteWeight)
    if full then r
    else { r with table := r.table.addRoute pathHash viaNode (r.config.minRouteWeight * 2) }

def removeNode (r : Router) (nodeId : UInt16) : Router := { r with table := r.table.removeNode nodeId }

/-- The first hop is taken before the limit is looked at. -/
def selectNextHops (r : Router) (pathHash : UInt32) : List UInt16 :=
  ((r.table.routesAbove pathHash r.config.minRouteWeight).map Route.nextHopNodeId).take
    (max r.config.maxRoutesPerPath.toNat 1)

def hasRoute (r : Router) (pathHash : UInt32) : Bool := (r.table.bestRoute pathHash).isSome

/-- The route that delivered is replaced by a heavier one. -/
def onDeliverySuccess (r : Router) (viaNode : UInt16) (pathHash : UInt32) (rttUs : UInt32) : Router :=
  match (r.table.getRoutes pathHash).find? (fun route => route.nextHopNodeId == viaNode) with
  | none => r
  | some route =>
    let newWeight := r.clampWeight (route.weight + r.config.successIncrement)
    let table := (r.table.removeRoute pathHash viaNode).addRoute pathHash viaNode newWeight
    { r with table := table.onSuccess pathHash viaNode rttUs }

/-- The failure is counted, and then the route is replaced by a lighter one, or taken
    out when it has become too light. -/
def onDeliveryFailure (r : Router) (viaNode : UInt16) (pathHash : UInt32) : Router :=
  let table := r.table.onFailure pathHash viaNode
  match (table.getRoutes pathHash).find? (fun route => route.nextHopNodeId == viaNode) with
  | none => { r with table := table }
  | some route =>
    let rawWeight := route.weight - r.config.failureDecrement
    let table := table.removeRoute pathHash viaNode
    if rawWeight ≥ r.config.minWeight then
      { r with table := table.addRoute pathHash viaNode (r.clampWeight rawWeight) }
    else { r with table := table }

def tick (r : Router) : Router := { r with table := r.table.decayAll r.config.decayFactor }

def setConfig (r : Router) (config : RouterConfig) : Router := { r with config := config }

end Router
end Rom
