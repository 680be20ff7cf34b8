import OsmMini.Cmd.RouteCache
import OsmMini.Cmd.Trip.SolveTrip
import OsmMini.Core.Routing.Maneuvers

/-!
# Requests for routes

A request for a route names two places and may bring options of its own. The places are
resolved and moved to the nearest nodes of the road graph, and the two nodes together with the
options are the key under which the response is looked up. A response that is found gets the
labels, the places and the links of the request; everything else in it was computed for another
request with the same key. A response that is not found is computed and stored.

However requests, expiry and changes of the settings follow one another, a response from the
cache is the one that a search would give for the request (`hits_transparent`): the key holds
everything that the search and the instructions read (`cacheKey_injective`), and what depends
on the request besides its key is set anew (`computeRoute_relabel`).

Numbers are exact. A request that fails before the cache is asked leaves it alone and is not
modelled; its places are given by what they are resolved to.
-/

set_option autoImplicit false

namespace OsmMini.Cmd

open OsmMini.Core OsmMini.Foundations.Machine

/-! ## Options and keys -/

/-- The options of a request as a client gives them: all of them but the cost of territories,
which no client can set. -/
structure RequestOptions where
  engine : RouteEngine
  objective : Objective
  profile : VehicleProfile
  pro : Bool
  weights : ProWeights ℚ
  emergencyMode : Bool

/-- What the searches read of the options. -/
def RequestOptions.toRouteOptions (opt : RequestOptions) : RouteOptions ℚ where
  engine := opt.engine
  objective := opt.objective
  profile := opt.profile
  weights := opt.weights
  emergencyMode := opt.emergencyMode
  territoryCost := none

structure RouteCacheKey where
  fromNode : Int64
  toNode : Int64
  engine : RouteEngine
  objective : Objective
  profile : VehicleProfile
  pro : Bool
  emergency : Bool
  leftTurn : ℚ
  rightTurn : ℚ
  uTurn : ℚ
  crossing : ℚ
  maxSpeed : ℚ
  heightM : ℚ
  weightT : ℚ
  noLeft : Bool
  trafficLightPenalty : ℚ
  deriving DecidableEq

def cacheKey (fromNode toNode : Int64) (opt : RequestOptions) : RouteCacheKey where
  fromNode := fromNode
  toNode := toNode
  engine := opt.engine
  objective := opt.objective
  profile := opt.profile
  pro := opt.pro
  emergency := opt.emergencyMode
  leftTurn := opt.weights.leftTurn
  rightTurn := opt.weights.rightTurn
  uTurn := opt.weights.uTurn
  crossing := opt.weights.crossing
  maxSpeed := opt.weights.maxSpeedKph
  heightM := opt.weights.vehicleHeightM
  weightT := opt.weights.vehicleWeightT
  noLeft := opt.weights.noLeftTurn
  trafficLightPenalty := opt.weights.trafficLightPenalty

/-- **Requests with equal keys have the same nodes and the same options.** -/
theorem cacheKey_injective {fromNode fromNode' toNode toNode' : Int64} {opt opt' : RequestOptions}
    (same : cacheKey fromNode toNode opt = cacheKey fromNode' toNode' opt') :
    fromNode = fromNode' ∧ toNode = toNode' ∧ opt = opt' := by
  obtain ⟨engine, objective, profile, pro, weights, emergency⟩ := opt
  obtain ⟨engine', objective', profile', pro', weights', emergency'⟩ := opt'
  obtain ⟨left, right, uTurn, crossing, speed, height, weight, noLeft, light⟩ := weights
  obtain ⟨left', right', uTurn', crossing', speed', height', weight', noLeft', light'⟩ := weights'
  simp only [cacheKey, RouteCacheKey.mk.injEq] at same
  obtain ⟨rfl, rfl, rfl, rfl, rfl, rfl, rfl, rfl, rfl, rfl, rfl, rfl, rfl, rfl, rfl, rfl⟩ := same
  exact ⟨rfl, rfl, rfl⟩

/-! ## Responses -/

/-- An end of a request: where its place was found, and the road node nearest to it. -/
structure RouteEnd where
  coord : Coord ℚ
  label : String
  input : String
  node : Int64
  dist : ℚ

def RouteEnd.point (e : RouteEnd) : RoutePoint where
  input := e.input
  label := e.label
  lat := e.coord.lat
  lon := e.coord.lon
  node := e.node
  snapM := e.dist

/-- A response with the fields that only a request for a single route fills. -/
structure SingleRouteResponse extends RouteResponse (List (Coord ℚ)) where
  profile : VehicleProfile
  steps : List (Maneuver ℚ)
  cached : Bool
  computeMs : ℚ

/-- A request for which there is no response: its status and message, or the access to a
coordinate that the path does not have. -/
inductive RouteFailure where
  | status (code : ℕ) (message : String)
  | outOfRange

def routeErrorMessage : RouteError → String
  | .noPath => "Zwischen Start und Ziel wurde keine Route gefunden. Liegen beide Punkte im " ++
      "geladenen Kartenausschnitt und sind sie über das Straßennetz verbunden?"
  | .startUnreachable => "Der Startpunkt liegt außerhalb des geladenen Kartenausschnitts oder " ++
      "ist nicht an das Straßennetz angebunden."
  | .targetUnreachable => "Der Zielpunkt liegt außerhalb des geladenen Kartenausschnitts oder " ++
      "ist nicht an das Straßennetz angebunden."
  | .engineUnsupported => "Das gewählte Routing-Verfahren ist gerade nicht verfügbar. Bitte " ++
      "versuche es mit einem anderen Profil erneut."

/-- A fixed router with what its searches and instructions compute from it, and the texts of
the links. The heuristic depends on the options of the search, its target and a node. -/
structure Roads where
  graph : Graph ℚ
  turnKind : Int64 → Int64 → Int64 → TurnKind
  heuristic : RouteOptions ℚ → Int64 → Int64 → ℚ
  streetNameForNode : Int64 → String
  haversineMeters : Coord ℚ → Coord ℚ → ℚ
  bearingDeg : Coord ℚ → Coord ℚ → ℚ
  buildGoogleMapsURL : List (Coord ℚ) → ℕ → String
  buildAppleMapsURL : List (Coord ℚ) → String

section Handler

variable (roads : Roads)

def Roads.route (opt : RouteOptions ℚ) (rounds : ℕ) (fromID toID : Int64) :
    Option (Except RouteError (RouteResult ℚ)) :=
  routeWithOptions roads.graph roads.turnKind (roads.heuristic opt.withDefaults toID) opt rounds
    fromID toID

def Roads.maneuvers (path : List Int64) : Option (List (Maneuver ℚ)) :=
  maneuversForPath roads.graph roads.streetNameForNode roads.haversineMeters roads.bearingDeg path

/-- The response for a path that was found. -/
def Roads.respond (start finish : RouteEnd) (opt : RequestOptions) (res : RouteResult ℚ)
    (steps : List (Maneuver ℚ)) (computeMs : ℚ) : SingleRouteResponse where
  fromPoint := start.point
  toPoint := finish.point
  engine := res.engine
  objective := res.objective
  profile := opt.profile
  cost := res.cost
  distanceM := res.distanceM
  durationS := res.durationS
  path := res.pathCoords
  googleMapsURL := roads.buildGoogleMapsURL [start.coord, finish.coord] 0
  appleMapsURL := roads.buildAppleMapsURL [start.coord, finish.coord]
  steps := steps
  cached := false
  computeMs := computeMs

/-- Compute a response. There is none when the rounds are not enough for the search. -/
def computeRoute (start finish : RouteEnd) (opt : RequestOptions) (rounds : ℕ) (computeMs : ℚ) :
    Option (Except RouteFailure SingleRouteResponse) :=
  (roads.route opt.toRouteOptions rounds start.node finish.node).map fun found =>
    match found with
    | .error err => .error (.status 400 (routeErrorMessage err))
    | .ok res =>
      if res.pathCoords.length = 0 then
        .error (.status 500 "Route konnte nicht berechnet werden: leerer Pfad.")
      else
        match roads.maneuvers res.path with
        | none => .error .outOfRange
        | some steps => .ok (roads.respond start finish opt res steps computeMs)

/-- Set what depends on the places of a request in a response that is found. -/
def relabel (start finish : RouteEnd) (resp : SingleRouteResponse) : SingleRouteResponse :=
  { resp with
    fromPoint := start.point
    toPoint := finish.point
    googleMapsURL := roads.buildGoogleMapsURL [start.coord, finish.coord] 0
    appleMapsURL := roads.buildAppleMapsURL [start.coord, finish.coord] }

/-- The part of the server that requests for routes use: the routing options of the settings,
and the cache. -/
structure RouteServer where
  routing : RequestOptions
  routeCache : RouteCache RouteCacheKey SingleRouteResponse

structure SingleRouteRequest where
  start : RouteEnd
  finish : RouteEnd
  options : Option RequestOptions

/-- What a request meets: the clock when the cache is asked, the length of its search, and the
orders and times of storing its response. -/
structure RouteAttempt where
  asked : Time
  rounds : ℕ
  computeMs : ℚ
  order : MapOrder RouteCacheKey
  now : Time
  later : Time

/-- Answer a request, from the cache if it can be. -/
def handleRoute (s : RouteServer) (req : SingleRouteRequest) (attempt : RouteAttempt) :
    RouteServer × Option (Except RouteFailure SingleRouteResponse) :=
  let opt := req.options.getD s.routing
  let key := cacheKey req.start.node req.finish.node opt
  match s.routeCache.get key attempt.asked with
  | some found => (s, some (.ok { relabel roads req.start req.finish found with cached := true }))
  | none =>
    match computeRoute roads req.start req.finish opt attempt.rounds attempt.computeMs with
    | some (.ok resp) =>
      ({ s with
          routeCache := s.routeCache.set key resp attempt.order attempt.now attempt.later },
        some (.ok resp))
    | answer => (s, answer)

/-- What happens to the server: a request, the expiry of responses, or new settings. -/
inductive RouteServerCall where
  | route (req : SingleRouteRequest) (attempt : RouteAttempt)
  | evict (order : MapOrder RouteCacheKey) (now : Time)
  | saveSettings (routing : RequestOptions)

def RouteServer.step (s : RouteServer) :
    RouteServerCall → RouteServer × Option (Except RouteFailure SingleRouteResponse)
  | .route req attempt => handleRoute roads s req attempt
  | .evict order now => ({ s with routeCache := s.routeCache.evict order now }, none)
  | .saveSettings routing => (⟨routing, s.routeCache.invalidate⟩, none)

def newRouteServer (routing : RequestOptions) (ttl maxItems : ℤ) : RouteServer :=
  ⟨routing, newRouteCache ttl maxItems⟩

/-! ## What a response depends on -/

variable {roads} {start start' finish finish' : RouteEnd} {opt : RequestOptions}
  {rounds more : ℕ} {ms : ℚ}

/-- The answer stays the same when the search is given more rounds. -/
theorem computeRoute_mono {answer : Except RouteFailure SingleRouteResponse} (le : rounds ≤ more)
    (found : computeRoute roads start finish opt rounds ms = some answer) :
    computeRoute roads start finish opt more ms = some answer := by
  obtain ⟨result, ended, rfl⟩ := Option.map_eq_some_iff.mp found
  exact Option.map_eq_some_iff.mpr ⟨result, routeWithOptions_mono le ended, rfl⟩

/-- A response stands for a path with coordinates and instructions. -/
theorem computeRoute_eq_ok_iff {resp : SingleRouteResponse} :
    computeRoute roads start finish opt rounds ms = some (.ok resp) ↔
      ∃ res steps, roads.route opt.toRouteOptions rounds start.node finish.node = some (.ok res) ∧
        res.pathCoords.length ≠ 0 ∧ roads.maneuvers res.path = some steps ∧
          roads.respond start finish opt res steps ms = resp := by
  rw [computeRoute, Option.map_eq_some_iff]
  constructor
  · rintro ⟨err | res, ended, answer⟩
    · cases answer
    by_cases empty : res.pathCoords.length = 0
    · simp only [if_pos empty] at answer
      cases answer
    simp only [if_neg empty] at answer
    cases told : roads.maneuvers res.path with
    | none =>
        rw [told] at answer
        cases answer
    | some steps =>
        rw [told] at answer
        exact ⟨res, steps, ended, empty, told, Except.ok.inj answer⟩
  · rintro ⟨res, steps, ended, coords, told, rfl⟩
    exact ⟨.ok res, ended, by simp only [if_neg coords, told]⟩

/-- **For other places at the same nodes the response differs in what is set anew.** -/
theorem computeRoute_relabel (sameStart : start.node = start'.node)
    (sameFinish : finish.node = finish'.node) {resp : SingleRouteResponse}
    (found : computeRoute roads start finish opt rounds ms = some (.ok resp)) (ms' : ℚ) :
    computeRoute roads start' finish' opt rounds ms' =
      some (.ok { relabel roads start' finish' resp with computeMs := ms' }) := by
  obtain ⟨res, steps, ended, coords, told, rfl⟩ := computeRoute_eq_ok_iff.mp found
  rw [sameStart, sameFinish] at ended
  exact computeRoute_eq_ok_iff.mpr ⟨res, steps, ended, coords, told, rfl⟩

theorem computeRoute_cached {resp : SingleRouteResponse}
    (found : computeRoute roads start finish opt rounds ms = some (.ok resp)) :
    resp.cached = false := by
  obtain ⟨res, steps, -, -, -, rfl⟩ := computeRoute_eq_ok_iff.mp found
  rfl

/-! ## What the cache holds -/

variable (roads) in
/-- A response was computed for some request with a key. -/
def ComputedFor (key : RouteCacheKey) (resp : SingleRouteResponse) : Prop :=
  ∃ start finish opt rounds ms, cacheKey start.node finish.node opt = key ∧
    computeRoute roads start finish opt rounds ms = some (.ok resp)

variable (roads) in
/-- Every response in the cache was computed for a request with its key. -/
structure RouteServer.Sound (s : RouteServer) : Prop where
  room : 0 < s.routeCache.maxItems
  computed : ∀ key, ∀ e ∈ s.routeCache.entries.lookup key, ComputedFor roads key e.resp

theorem RouteServer.sound_new (routing : RequestOptions) (ttl maxItems : ℤ) :
    (newRouteServer routing ttl maxItems).Sound roads where
  room := (RouteCache.newRouteCache_bounded ttl maxItems).1
  computed key e found := by
    rw [newRouteServer, newRouteCache, AList.lookup_empty] at found
    cases found

/-- Storing a response for its own key keeps the cache sound. -/
theorem RouteServer.Sound.set {s : RouteServer} (sound : s.Sound roads) {key : RouteCacheKey}
    {resp : SingleRouteResponse} (computed : ComputedFor roads key resp)
    (order : MapOrder RouteCacheKey) (now later : Time) :
    RouteServer.Sound roads { s with routeCache := s.routeCache.set key resp order now later } where
  room := sound.room
  computed k e found := by
    by_cases same : k = key
    · subst same
      rw [RouteCache.lookup_set, Option.mem_some_iff] at found
      rwa [← found]
    · rw [RouteCache.set, AList.lookup_insert_ne same] at found
      rcases RouteCache.lookup_prepared sound.room key order now k with gone | kept
      · rw [gone] at found
        cases found
      · exact sound.computed k e (kept ▸ found)

/-- **Every call keeps the cache sound.** -/
theorem RouteServer.Sound.step {s : RouteServer} (sound : s.Sound roads) (call : RouteServerCall) :
    (s.step roads call).1.Sound roads := by
  cases call with
  | route req attempt =>
      simp only [RouteServer.step, handleRoute]
      split
      · exact sound
      · split
        next resp made => exact sound.set ⟨_, _, _, _, _, rfl, made⟩ _ _ _
        next => exact sound
  | evict order now =>
      refine ⟨sound.room, fun key e found => sound.computed key e ?_⟩
      have left := RouteCache.lookup_purge order now s.routeCache.entries key
      split at left
      · rw [RouteServer.step, RouteCache.evict, left] at found
        cases found
      · rwa [RouteServer.step, RouteCache.evict, left] at found
  | saveSettings routing =>
      refine ⟨sound.room, fun key e found => ?_⟩
      rw [RouteServer.step, RouteCache.invalidate, AList.lookup_empty] at found
      cases found

/-- A request that is answered from a sound cache finds a response computed for its key. -/
theorem RouteServer.Sound.hit {s : RouteServer} (sound : s.Sound roads)
    {req : SingleRouteRequest} {attempt : RouteAttempt} {resp : SingleRouteResponse}
    (answer : (handleRoute roads s req attempt).2 = some (.ok resp)) (cached : resp.cached = true) :
    ∃ found, ComputedFor roads
        (cacheKey req.start.node req.finish.node (req.options.getD s.routing)) found ∧
      resp = { relabel roads req.start req.finish found with cached := true } := by
  rw [handleRoute] at answer
  cases stored : s.routeCache.get (cacheKey req.start.node req.finish.node
      (req.options.getD s.routing)) attempt.asked with
  | some found =>
      simp only [stored, Option.some.injEq, Except.ok.injEq] at answer
      obtain ⟨e, lookup, -, rfl⟩ := RouteCache.get_eq_some_iff.mp stored
      exact ⟨e.resp, sound.computed _ e lookup, answer.symm⟩
  | none =>
      simp only [stored] at answer
      cases made : computeRoute roads req.start req.finish (req.options.getD s.routing)
          attempt.rounds attempt.computeMs with
      | none => simp [made] at answer
      | some outcome =>
          cases outcome with
          | error failure => simp [made] at answer
          | ok fresh =>
              simp only [made, Option.some.injEq, Except.ok.injEq] at answer
              rw [← answer, computeRoute_cached made] at cached
              cases cached

/-- **A response from the cache is the one a search would give.** After any requests, expiry and
changes of the settings, a request that is answered from the cache has a search that ends with
a response, and every search of it that ends gives the same response, apart from what says that
it was cached and how long the search took. -/
theorem hits_transparent (roads : Roads) (routing : RequestOptions) (ttl maxItems : ℤ)
    (calls : List RouteServerCall) (req : SingleRouteRequest) (attempt : RouteAttempt)
    {resp : SingleRouteResponse}
    (answer : (handleRoute roads (run (RouteServer.step roads)
      (newRouteServer routing ttl maxItems) calls) req attempt).2 = some (.ok resp))
    (cached : resp.cached = true) :
    (∃ rounds ms fresh, computeRoute roads req.start req.finish
      (req.options.getD (run (RouteServer.step roads)
        (newRouteServer routing ttl maxItems) calls).routing) rounds ms = some (.ok fresh)) ∧
      ∀ rounds ms outcome, computeRoute roads req.start req.finish
        (req.options.getD (run (RouteServer.step roads)
          (newRouteServer routing ttl maxItems) calls).routing) rounds ms = some outcome →
        ∃ fresh, outcome = .ok fresh ∧
          { fresh with cached := true, computeMs := resp.computeMs } = resp := by
  have sound : (run (RouteServer.step roads) (newRouteServer routing ttl maxItems) calls).Sound
      roads := run_always (fun s call sound => sound.step call) calls _
    (RouteServer.sound_new routing ttl maxItems)
  obtain ⟨found, ⟨start, finish, opt, rounds, ms, key, made⟩, rfl⟩ := sound.hit answer cached
  obtain ⟨sameStart, sameFinish, sameOptions⟩ := cacheKey_injective key
  rw [sameOptions] at made
  refine ⟨⟨rounds, ms, _, computeRoute_relabel sameStart sameFinish made ms⟩, ?_⟩
  intro rounds' ms' outcome ended
  refine ⟨{ relabel roads req.start req.finish found with computeMs := ms' }, ?_, ?_⟩
  · -- Both searches are given the rounds of the longer one.
    have again : computeRoute roads req.start req.finish (req.options.getD _) rounds ms' =
        some (.ok { relabel roads req.start req.finish found with computeMs := ms' }) :=
      computeRoute_relabel sameStart sameFinish made ms'
    have long := computeRoute_mono (le_max_left rounds rounds') again
    have long' := computeRoute_mono (le_max_right rounds rounds') ended
    exact Option.some.inj (long'.symm.trans long)
  · rfl

end Handler

/-! ## A request made twice -/

/-- One node and no road. -/
def standStill : Roads where
  graph := MemoryGraph.toGraph ⟨GoMap.ofList [(1, ⟨0, 0⟩)], ∅⟩
  turnKind _ _ _ := .straight
  heuristic _ _ _ := 0
  streetNameForNode _ := ""
  haversineMeters _ _ := 0
  bearingDeg _ _ := 0
  buildGoogleMapsURL _ _ := ""
  buildAppleMapsURL _ := ""

def carOptions : RequestOptions where
  engine := .astar
  objective := .duration
  profile := .car
  pro := false
  weights := ⟨0, 0, 0, 0, 0, 0, 0, false, 0⟩
  emergencyMode := false

/-- A place at the only node, under a label. -/
def placeAt (label : String) : RouteEnd := ⟨⟨0, 0⟩, label, label, 1, 0⟩

def toItself (label : String) : SingleRouteRequest := ⟨placeAt label, placeAt label, none⟩

def attemptAt (time : Time) : RouteAttempt := ⟨time, 1, 5, ⟨id, List.Perm.refl⟩, time, time⟩

/-- The second of two requests under different labels is answered from the cache. -/
theorem hits_transparent_toItself : ∃ resp : SingleRouteResponse,
    resp.fromPoint.label = "b" ∧ resp.cached = true ∧
      ∀ rounds ms outcome, computeRoute standStill (placeAt "b") (placeAt "b") carOptions rounds ms =
        some outcome → ∃ fresh, outcome = .ok fresh ∧
          { fresh with cached := true, computeMs := resp.computeMs } = resp := by
  have answer : (handleRoute standStill (run (RouteServer.step standStill)
      (newRouteServer carOptions 10 10) [.route (toItself "a") (attemptAt 0)]) (toItself "b")
      (attemptAt 1)).2 = some (.ok { relabel standStill (placeAt "b") (placeAt "b")
        (standStill.respond (placeAt "a") (placeAt "a") carOptions
          ⟨[1], [⟨0, 0⟩], 0, 0, 0, .duration, .astar⟩
          [maneuverAt standStill.graph [1] ("arrive", "Ziel erreicht") 0 0 0] 5) with
        cached := true }) := by
    rfl
  exact ⟨_, rfl, rfl, (hits_transparent standStill carOptions 10 10 _ _ _ answer rfl).2⟩

end OsmMini.Cmd
