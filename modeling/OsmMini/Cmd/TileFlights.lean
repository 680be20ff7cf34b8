import OsmMini.Cmd.Basic
import OsmMini.Core.Types

/-!
# Shared downloads of tiles

Browsers that want the same tile at the same time share one lookup. The first one starts a
flight, the others join it while it is registered, and every one of them may leave early.
A flight whose last waiter has left is cancelled and unregistered at once, so that nobody
joins work that will not be finished; a flight that is done unregisters itself.

The sections under the lock run one at a time, and those of all browsers, of the flights, of
the settings and of the eviction interleave in any order. Flights are told apart by the
order in which they were started. At every moment a flight that is not done and has waiters
is the one that is registered for its tile (`Coalesced`, `coalesced_run`), and the tiles in
memory are no more than they may be (`bounded_run`).
-/

set_option autoImplicit false

namespace OsmMini.Cmd

open OsmMini.Core

/-! ## Settings, tiles and results -/

/-- The settings of a tile source, as far as requests for tiles read them. -/
structure TileSettings where
  cacheDir : String
  upstream : String
  userAgent : String
  mapType : String
  wmsLayers : String
  maxZoom : ℤ
  memCacheSize : ℤ
  deriving DecidableEq

structure TileCacheKey where
  source : String
  z : ℤ
  x : ℤ
  y : ℤ
  deriving DecidableEq

structure TileMemEntry where
  data : List UInt8
  contentType : String
  expiresAt : Time

structure TileResult where
  data : List UInt8
  contentType : String
  errorMessage : String
  deriving DecidableEq

def tileMemCacheDefaultMaxItems : ℤ := 512

def tileMemCacheTTL : ℤ := 24 * 60 * Time.minute

def TileResult.failed (message : String) : TileResult := ⟨[], "", message⟩

/-- Why a lookup failed. -/
inductive TileFailure where
  | upstream
  | status
  | read
  | noImage

def TileFailure.message : TileFailure → String
  | .upstream => "tile upstream error"
  | .status => "tile upstream non-200"
  | .read => "tile read error"
  | .noImage => "tile upstream did not return an image"

/-! ## The tiles in memory -/

/-- The tiles in memory, in the order a range over them visits them. -/
structure TileMem where
  entries : List (TileCacheKey × TileMemEntry)
  distinct : (entries.map Prod.fst).Nodup

namespace TileMem

def empty : TileMem := ⟨[], List.nodup_nil⟩

def lookup (m : TileMem) (key : TileCacheKey) : Option TileMemEntry :=
  (m.entries.find? (·.1 = key)).map Prod.snd

/-- The tiles that satisfy a condition; the others are deleted. -/
def keep (m : TileMem) (p : TileCacheKey × TileMemEntry → Bool) : TileMem where
  entries := m.entries.filter p
  distinct := m.distinct.sublist (List.filter_sublist.map Prod.fst)

def insert (m : TileMem) (key : TileCacheKey) (entry : TileMemEntry) : TileMem where
  entries := (key, entry) :: (m.keep (·.1 ≠ key)).entries
  distinct := by
    rw [List.map_cons, List.nodup_cons]
    refine ⟨fun member => ?_, (m.keep (·.1 ≠ key)).distinct⟩
    obtain ⟨other, kept, same⟩ := List.mem_map.mp member
    exact of_decide_eq_true (List.mem_filter.mp kept).2 same

/-- Delete the tiles that have expired. -/
def purge (m : TileMem) (now : Time) : TileMem := m.keep fun kv => !(kv.2.expiresAt < now)

end TileMem

structure TileKV where
  k : TileCacheKey
  t : Time

/-- A way to sort tiles by their expiry. Nothing is said about the order of tiles that expire
at the same time. -/
structure TileSort where
  sort : List TileKV → List TileKV
  perm : ∀ entries, (sort entries).Perm entries
  sorted : ∀ entries, (sort entries).Pairwise fun a b => a.t ≤ b.t

/-- Delete the quarter of the tiles that expires first, but at least one. -/
def TileMem.dropOldest (m : TileMem) (sortTileEntriesByExpiry : TileSort) : TileMem :=
  let entries := sortTileEntriesByExpiry.sort (m.entries.map fun kv => ⟨kv.1, kv.2.expiresAt⟩)
  let n := max 1 (entries.length / 4)
  m.keep fun kv => kv.1 ∉ (entries.take n).map TileKV.k

/-! ## Flights and their waiters -/

/-- Where the goroutine of a flight stands. -/
inductive FillPhase where
  | reading
  /-- The tile was found on disk and is about to be counted. -/
  | found (data : List UInt8) (contentType : String)
  /-- The tile, from disk or from upstream, is about to be put into memory. -/
  | storing (data : List UInt8) (contentType : String) (fetched : Bool)
  /-- A fetched tile is in memory and is about to be counted. -/
  | counting (data : List UInt8) (contentType : String)
  | read (result : TileResult)
  /-- The result was announced; the context is about to be cancelled. -/
  | completed
  | finished

/-- A flight with the arguments of the goroutine that fills it, and whether its context is
cancelled. -/
structure TileFlight where
  cfg : TileSettings
  key : TileCacheKey
  fill : FillPhase
  done : Bool
  cancelled : Bool
  waiters : ℤ
  result : TileResult

/-- Where a request for a tile stands. -/
inductive ClientPhase where
  | idle
  | configured (cfg : TileSettings) (key : TileCacheKey)
  /-- The tile was not in memory. -/
  | missed (cfg : TileSettings) (key : TileCacheKey)
  /-- The context was checked; the lock is about to be taken. -/
  | entering (cfg : TileSettings) (key : TileCacheKey)
  | waiting (key : TileCacheKey) (flight : ℕ)
  /-- The wait is over, because the client gave up or because the flight is done. -/
  | leaving (key : TileCacheKey) (flight : ℕ) (gaveUp : Bool)
  | left (flight : ℕ) (gaveUp : Bool) (result : TileResult)
  | answered (result : TileResult)
  | notFound

/-- The request is counted as a waiter of the flight. -/
def ClientPhase.At (phase : ClientPhase) (key : TileCacheKey) (flight : ℕ) : Prop :=
  match phase with
  | .waiting k f | .leaving k f _ => key = k ∧ flight = f
  | _ => False

@[simp] theorem ClientPhase.at_waiting {key k : TileCacheKey} {f g : ℕ} :
    (waiting key f).At k g ↔ k = key ∧ g = f := Iff.rfl

@[simp] theorem ClientPhase.at_leaving {key k : TileCacheKey} {f g : ℕ} {gaveUp : Bool} :
    (leaving key f gaveUp).At k g ↔ k = key ∧ g = f := Iff.rfl

structure TileCacheStats where
  memHits : ℕ
  diskHits : ℕ
  fetches : ℕ
  errors : ℕ

/-- A step of a request, of a flight, of the settings, of the eviction, or the cancellation
of a request. -/
inductive TileEvent (Client : Type) where
  | serveHTTP (client : Client) (z x y : ℤ)
  | getFromMem (client : Client) (now : Time)
  | checkContext (client : Client)
  | loadTile (client : Client) (now : Time)
  | cancel (client : Client)
  | giveUp (client : Client)
  | receive (client : Client)
  | leaveTileFlight (client : Client)
  | findTile (flight : ℕ) (data : List UInt8) (contentType : String)
  | fetchTile (flight : ℕ) (data : List UInt8) (contentType : String)
  | failTile (flight : ℕ) (failure : TileFailure)
  | countFound (flight : ℕ)
  | setInMem (flight : ℕ) (called now : Time) (sort : TileSort)
  | countFetch (flight : ℕ)
  | fillTile (flight : ℕ)
  | cancelFilled (flight : ℕ)
  | update (cfg : TileSettings)
  | evictMem (now : Time) (sort : TileSort)

/-- The cache with everybody who uses it. `flight` holds the flights that were started, of
which there are `started`. -/
structure TileCache (Client : Type) where
  cfg : TileSettings
  source : String
  directOnly : Bool
  mem : TileMem
  memMax : ℤ
  flights : GoMap TileCacheKey ℕ
  stats : TileCacheStats
  flight : ℕ → TileFlight
  started : ℕ
  phase : Client → ClientPhase
  gone : Client → Bool

section Source

variable (toLower : Char → Char) (digest : String → String) (isOSMStandardTileURL : String → Bool)

def normalizedMapType (mapType : String) : String :=
  let mapType := (trimSpace mapType).map toLower
  if mapType = "" then "raster" else mapType

/-- The name of a source; `digest` is the hash that tells the materials apart. -/
def tileSourceNamespace (cfg : TileSettings) : String :=
  digest ("\x00".intercalate
    [normalizedMapType toLower cfg.mapType, trimSpace cfg.upstream, trimSpace cfg.wmsLayers])

def servedDirectly (cfg : TileSettings) : Bool :=
  normalizedMapType toLower cfg.mapType = "raster-direct" || isOSMStandardTileURL cfg.upstream

def TileSettings.memMax (cfg : TileSettings) : ℤ :=
  if cfg.memCacheSize ≤ 0 then tileMemCacheDefaultMaxItems else cfg.memCacheSize

namespace TileCache

variable {Client : Type} [DecidableEq Client]

def newTileCache (cfg : TileSettings) : TileCache Client where
  cfg := cfg
  source := tileSourceNamespace toLower digest cfg
  directOnly := servedDirectly toLower isOSMStandardTileURL cfg
  mem := .empty
  memMax := cfg.memMax
  flights := ∅
  stats := ⟨0, 0, 0, 0⟩
  flight _ := ⟨cfg, ⟨"", 0, 0, 0⟩, .finished, false, false, 0, ⟨[], "", ""⟩⟩
  started := 0
  phase _ := .idle
  gone _ := false

def move (tc : TileCache Client) (client : Client) (phase : ClientPhase) : TileCache Client :=
  { tc with phase := Function.update tc.phase client phase }

def setFlight (tc : TileCache Client) (f : ℕ) (flight : TileFlight) : TileCache Client :=
  { tc with flight := Function.update tc.flight f flight }

/-- Delete the registration of a flight; that of another one stays. -/
def unregister (tc : TileCache Client) (key : TileCacheKey) (f : ℕ) : TileCache Client :=
  if tc.flights.lookup key = some f then { tc with flights := tc.flights.erase key } else tc

/-- The checks of a request for a tile whose path has been read. -/
def serveHTTP (tc : TileCache Client) (client : Client) (z x y : ℤ) : TileCache Client :=
  if z < 0 ∨ 20 < z ∨ x < 0 ∨ y < 0 then tc.move client .notFound
  else if tc.directOnly then tc.move client .notFound
  else if 0 < tc.cfg.maxZoom ∧ tc.cfg.maxZoom < z then tc.move client .notFound
  else if 2 ^ z.toNat ≤ x ∨ 2 ^ z.toNat ≤ y then tc.move client .notFound
  else tc.move client (.configured tc.cfg ⟨tc.source, z, x, y⟩)

/-- A tile in memory that has not expired. -/
def fresh (tc : TileCache Client) (key : TileCacheKey) (now : Time) : Option TileMemEntry :=
  (tc.mem.lookup key).filter fun e => !(e.expiresAt < now)

/-- Serve a tile from memory. -/
def hit (tc : TileCache Client) (client : Client) (e : TileMemEntry) : TileCache Client :=
  { tc.move client (.answered ⟨e.data, e.contentType, ""⟩) with
    stats := { tc.stats with memHits := tc.stats.memHits + 1 } }

def getFromMem (tc : TileCache Client) (client : Client) (cfg : TileSettings)
    (key : TileCacheKey) (now : Time) : TileCache Client :=
  match tc.fresh key now with
  | some e => tc.hit client e
  | none => tc.move client (.missed cfg key)

/-- One more request waits for a flight. -/
def join (tc : TileCache Client) (client : Client) (key : TileCacheKey) (f : ℕ) :
    TileCache Client :=
  (tc.setFlight f { tc.flight f with waiters := (tc.flight f).waiters + 1 }).move client
    (.waiting key f)

/-- Start a flight and register it. -/
def start (tc : TileCache Client) (cfg : TileSettings) (key : TileCacheKey) : TileCache Client :=
  { tc.setFlight tc.started ⟨cfg, key, .reading, false, false, 0, ⟨[], "", ""⟩⟩ with
    flights := tc.flights.insert key tc.started
    started := tc.started + 1 }

/-- The section of `loadTile` under the lock. -/
def loadTile (tc : TileCache Client) (client : Client) (cfg : TileSettings)
    (key : TileCacheKey) (now : Time) : TileCache Client :=
  match tc.fresh key now with
  | some e => tc.hit client e
  | none =>
    match tc.flights.lookup key with
    | some f => tc.join client key f
    | none => (tc.start cfg key).join client key tc.started

def leaveTileFlight (tc : TileCache Client) (key : TileCacheKey) (f : ℕ) : TileCache Client :=
  let waiters := (tc.flight f).waiters - 1
  if waiters = 0 then
    (tc.setFlight f { tc.flight f with waiters := waiters, cancelled := true }).unregister key f
  else tc.setFlight f { tc.flight f with waiters := waiters }

/-- The section of `fillTile` under the lock. -/
def fillTile (tc : TileCache Client) (f : ℕ) (result : TileResult) : TileCache Client :=
  let flight := { tc.flight f with result := result, done := true, fill := .completed }
  (tc.setFlight f flight).unregister flight.key f

/-- The lookup of a flight goes on. -/
def advance (tc : TileCache Client) (f : ℕ) (fill : FillPhase) : TileCache Client :=
  tc.setFlight f { tc.flight f with fill := fill }

def setInMem (tc : TileCache Client) (key : TileCacheKey) (data : List UInt8)
    (contentType : String) (called now : Time) (sort : TileSort) : TileCache Client :=
  let mem :=
    if tc.memMax ≤ tc.mem.entries.length then
      let purged := tc.mem.purge now
      if tc.memMax ≤ purged.entries.length then purged.dropOldest sort else purged
    else tc.mem
  { tc with mem := mem.insert key ⟨data, contentType, called + tileMemCacheTTL⟩ }

def evictMem (tc : TileCache Client) (now : Time) (sort : TileSort) : TileCache Client :=
  let purged := tc.mem.purge now
  if (purged.entries.length : ℤ) ≤ tc.memMax then { tc with mem := purged }
  else { tc with mem := purged.dropOldest sort }

def update (tc : TileCache Client) (cfg : TileSettings) : TileCache Client :=
  let source := tileSourceNamespace toLower digest cfg
  let configured := { tc with
    cfg := cfg
    source := source
    directOnly := servedDirectly toLower isOSMStandardTileURL cfg }
  if cfg.memMax ≠ tc.memMax ∨ tc.source ≠ source then
    { configured with memMax := cfg.memMax, mem := .empty }
  else configured

/-- One step. What cannot happen where everybody stands changes nothing. -/
def step (tc : TileCache Client) : TileEvent Client → TileCache Client
  | .serveHTTP client z x y =>
    match tc.phase client with
    | .idle => tc.serveHTTP client z x y
    | _ => tc
  | .getFromMem client now =>
    match tc.phase client with
    | .configured cfg key => tc.getFromMem client cfg key now
    | _ => tc
  | .checkContext client =>
    match tc.phase client with
    | .missed cfg key =>
      if tc.gone client then tc.move client (.answered (.failed "tile upstream error"))
      else tc.move client (.entering cfg key)
    | _ => tc
  | .loadTile client now =>
    match tc.phase client with
    | .entering cfg key => tc.loadTile client cfg key now
    | _ => tc
  | .cancel client => { tc with gone := Function.update tc.gone client true }
  | .giveUp client =>
    match tc.phase client with
    | .waiting key f => if tc.gone client then tc.move client (.leaving key f true) else tc
    | _ => tc
  | .receive client =>
    match tc.phase client with
    | .waiting key f => if (tc.flight f).done then tc.move client (.leaving key f false) else tc
    | _ => tc
  | .leaveTileFlight client =>
    match tc.phase client with
    | .leaving key f true =>
      (tc.leaveTileFlight key f).move client (.left f true (.failed "tile upstream error"))
    | .leaving key f false =>
      (tc.leaveTileFlight key f).move client (.left f false (tc.flight f).result)
    | _ => tc
  | .findTile f data contentType =>
    match (tc.flight f).fill with
    | .reading =>
      if (tc.flight f).cancelled then tc else tc.advance f (.found data contentType)
    | _ => tc
  | .fetchTile f data contentType =>
    match (tc.flight f).fill with
    | .reading =>
      if (tc.flight f).cancelled then tc else tc.advance f (.storing data contentType true)
    | _ => tc
  | .failTile f failure =>
    match (tc.flight f).fill with
    | .reading =>
      { tc.advance f (.read (.failed failure.message)) with
        stats := { tc.stats with errors := tc.stats.errors + 1 } }
    | _ => tc
  | .countFound f =>
    match (tc.flight f).fill with
    | .found data contentType =>
      { tc.advance f (.storing data contentType false) with
        stats := { tc.stats with diskHits := tc.stats.diskHits + 1 } }
    | _ => tc
  | .setInMem f called now sort =>
    match (tc.flight f).fill with
    | .storing data contentType fetched =>
      (tc.setInMem (tc.flight f).key data contentType called now sort).advance f
        (if fetched then .counting data contentType else .read ⟨data, contentType, ""⟩)
    | _ => tc
  | .countFetch f =>
    match (tc.flight f).fill with
    | .counting data contentType =>
      { tc.advance f (.read ⟨data, contentType, ""⟩) with
        stats := { tc.stats with fetches := tc.stats.fetches + 1 } }
    | _ => tc
  | .fillTile f =>
    match (tc.flight f).fill with
    | .read result => tc.fillTile f result
    | _ => tc
  | .cancelFilled f =>
    match (tc.flight f).fill with
    | .completed => tc.setFlight f { tc.flight f with cancelled := true, fill := .finished }
    | _ => tc
  | .update cfg => tc.update toLower digest isOSMStandardTileURL cfg
  | .evictMem now sort => tc.evictMem now sort

/-- The cache after a sequence of steps. -/
def run (cfg : TileSettings) (events : List (TileEvent Client)) : TileCache Client :=
  events.foldl (step toLower digest isOSMStandardTileURL)
    (newTileCache toLower digest isOSMStandardTileURL cfg)

end TileCache

end Source

/-! ## What holds at every moment -/

/-- The waiters of every flight are counted, and a flight that is not done and has waiters is
registered for its tile and not cancelled. -/
structure Coalesced {Client : Type} (phase : Client → ClientPhase) (flight : ℕ → TileFlight)
    (registered : TileCacheKey → Option ℕ) (started : ℕ) (gone : Client → Bool) : Prop where
  unstarted : ∀ f, started ≤ f → (flight f).fill = .finished
  known : ∀ c key f, (phase c).At key f → f < started ∧ (flight f).key = key
  counted : ∀ f < started, ∃ present : Finset Client,
    (∀ c, c ∈ present ↔ ∃ key, (phase c).At key f) ∧ (present.card : ℤ) = (flight f).waiters
  live : ∀ key f, registered key = some f → f < started ∧ (flight f).key = key ∧
    (flight f).cancelled = false ∧ (flight f).done = false ∧ 0 < (flight f).waiters
  single : ∀ f < started, (flight f).done = false → 0 < (flight f).waiters →
    registered (flight f).key = some f
  stopped : ∀ f < started, (flight f).cancelled = true →
    (flight f).waiters = 0 ∨ (flight f).done = true
  announced : ∀ f < started, (flight f).done = true ↔
    (flight f).fill = .completed ∨ (flight f).fill = .finished
  received : ∀ c key f, phase c = .leaving key f false → (flight f).done = true
  left : ∀ c f result, phase c = .left f false result →
    f < started ∧ (flight f).done = true ∧ result = (flight f).result
  gaveUp : ∀ c key f, phase c = .leaving key f true → gone c = true
  gaveUpLeft : ∀ c f result, phase c = .left f true result → gone c = true

namespace Coalesced

variable {Client : Type} [DecidableEq Client] {phase : Client → ClientPhase}
  {flight : ℕ → TileFlight} {registered : TileCacheKey → Option ℕ} {started : ℕ}
  {gone : Client → Bool}

/-- A request that waits for no flight moves on. -/
theorem pass (coalesced : Coalesced phase flight registered started gone) {client : Client}
    {next : ClientPhase} (apart : ∀ key f, ¬ (phase client).At key f)
    (apart' : ∀ key f, ¬ next.At key f)
    (unjoined : ∀ f gaveUp result, next ≠ .left f gaveUp result) :
    Coalesced (Function.update phase client next) flight registered started gone := by
  have same : ∀ c key f, ((Function.update phase client next) c).At key f ↔ (phase c).At key f := by
    intro c key f
    rw [Function.update_apply]
    split_ifs with here
    · rw [here]
      exact iff_of_false (apart' key f) (apart key f)
    · exact Iff.rfl
  obtain ⟨unstarted, known, counted, live, single, stopped, announced, received, left, gaveUp,
    gaveUpLeft⟩ := coalesced
  refine ⟨unstarted, fun c key f at' => known c key f ((same c key f).mp at'), fun f made => ?_,
    live, single, stopped, announced, fun c key f => ?_, fun c f result => ?_, fun c key f => ?_,
    fun c f result => ?_⟩
  · obtain ⟨present, members, card⟩ := counted f made
    exact ⟨present, fun c => (members c).trans (exists_congr fun key => (same c key f).symm), card⟩
  all_goals rw [Function.update_apply]; split_ifs with here
  · exact fun leaving => absurd (leaving ▸ ⟨rfl, rfl⟩) (apart' key f)
  · exact received c key f
  · exact fun answered => absurd answered (unjoined f false result)
  · exact left c f result
  · exact fun leaving => absurd (leaving ▸ ⟨rfl, rfl⟩) (apart' key f)
  · exact gaveUp c key f
  · exact fun answered => absurd answered (unjoined f true result)
  · exact gaveUpLeft c f result

/-- One more request waits for a flight that is registered. -/
theorem join (coalesced : Coalesced phase flight registered started gone) {client : Client}
    {key : TileCacheKey} {f : ℕ} (apart : ∀ k g, ¬ (phase client).At k g)
    (found : registered key = some f) :
    Coalesced (Function.update phase client (.waiting key f))
      (Function.update flight f { flight f with waiters := (flight f).waiters + 1 })
      registered started gone := by
  obtain ⟨unstarted, known, counted, live, single, stopped, announced, received, left, gaveUp,
    gaveUpLeft⟩ := coalesced
  obtain ⟨made, keyed, alive, running, waits⟩ := live key f found
  have nobody : ∀ g, ¬ ∃ k, (phase client).At k g := fun g ⟨k, at'⟩ => apart k g at'
  refine ⟨?_, ?_, fun g before => ?_, ?_, ?_, ?_, ?_, ?_, ?_, ?_, ?_⟩
  · simp only [Function.update_apply]
    grind
  · simp only [Function.update_apply]
    grind [ClientPhase.At]
  · obtain ⟨present, members, card⟩ := counted g before
    by_cases here : g = f
    · subst here
      refine ⟨insert client present, fun c => ?_, ?_⟩
      · rw [Finset.mem_insert, members c]
        simp only [Function.update_apply]
        split_ifs with same
        · simp [same]
        · simp [same]
      · rw [Finset.card_insert_of_notMem fun member => nobody g ((members client).mp member)]
        simp only [Function.update_self]
        push_cast
        rw [card]
    · refine ⟨present, fun c => ?_, ?_⟩
      · rw [members c]
        simp only [Function.update_apply]
        split_ifs with same
        · simp [same, nobody, here]
        · rfl
      · rw [card, Function.update_of_ne here]
  all_goals simp only [Function.update_apply]
  · grind
  · grind
  · grind
  · grind
  · grind
  · grind
  · grind
  · grind

/-- A request starts a flight for a tile that has none, and waits for it. -/
theorem start (coalesced : Coalesced phase flight registered started gone) {client : Client}
    (cfg : TileSettings) {key : TileCacheKey} (apart : ∀ k g, ¬ (phase client).At k g)
    (missing : registered key = none) (result : TileResult) :
    Coalesced (Function.update phase client (.waiting key started))
      (Function.update flight started ⟨cfg, key, .reading, false, false, 1, result⟩)
      (fun k => if k = key then some started else registered k) (started + 1) gone := by
  obtain ⟨unstarted, known, counted, live, single, stopped, announced, received, left, gaveUp,
    gaveUpLeft⟩ := coalesced
  have before : ∀ c k, ¬ (phase c).At k started := fun c k at' => (known c k started at').1.false
  have early : ∀ c k b, phase c ≠ .leaving k started b := fun c k b leaves =>
    before c k (leaves ▸ ⟨rfl, rfl⟩)
  refine ⟨?_, ?_, fun g made => ?_, ?_, ?_, ?_, ?_, ?_, ?_, ?_, ?_⟩
  · simp only [Function.update_apply]
    grind
  · simp only [Function.update_apply]
    grind [ClientPhase.At]
  · rcases Nat.lt_succ_iff_lt_or_eq.mp made with older | rfl
    · obtain ⟨present, members, card⟩ := counted g older
      refine ⟨present, fun c => ?_, by rw [card, Function.update_of_ne older.ne]⟩
      rw [members c]
      simp only [Function.update_apply]
      split_ifs with same
      · simp [same, apart, older.ne]
      · rfl
    · refine ⟨{client}, fun c => ?_, by simp⟩
      simp only [Function.update_apply, Finset.mem_singleton]
      split_ifs with same
      · simp [same]
      · simp [same, before]
  all_goals simp only [Function.update_apply]
  · grind
  · grind
  · grind
  · grind
  · grind
  · grind
  · grind
  · grind

/-- The wait of a request is over. -/
theorem decide (coalesced : Coalesced phase flight registered started gone) {client : Client}
    {key : TileCacheKey} {f : ℕ} {gaveUp : Bool} (waits : phase client = .waiting key f)
    (why : if gaveUp then gone client = true else (flight f).done = true) :
    Coalesced (Function.update phase client (.leaving key f gaveUp)) flight registered started
      gone := by
  obtain ⟨unstarted, known, counted, live, single, stopped, announced, received, left, gone',
    goneLeft⟩ := coalesced
  have same : ∀ c k g, ((Function.update phase client (.leaving key f gaveUp)) c).At k g ↔
      (phase c).At k g := by
    intro c k g
    rw [Function.update_apply]
    split_ifs with here
    · rw [here, waits]
      rfl
    · rfl
  refine ⟨unstarted, fun c k g at' => known c k g ((same c k g).mp at'), fun g made => ?_, live,
    single, stopped, announced, ?_, ?_, ?_, ?_⟩
  · obtain ⟨present, members, card⟩ := counted g made
    exact ⟨present, fun c => (members c).trans (exists_congr fun k => (same c k g).symm), card⟩
  all_goals simp only [Function.update_apply]
  · grind
  · grind
  · grind
  · grind

/-- A request leaves its flight. The last one cancels the flight. -/
theorem leave (coalesced : Coalesced phase flight registered started gone) {client : Client}
    {key : TileCacheKey} {f : ℕ} {gaveUp : Bool} (leaves : phase client = .leaving key f gaveUp)
    {result : TileResult} (received : gaveUp = false → result = (flight f).result) {waiters : ℤ}
    (fewer : waiters = (flight f).waiters - 1) {cancelled : Bool}
    (stops : cancelled = if waiters = 0 then true else (flight f).cancelled) :
    Coalesced (Function.update phase client (.left f gaveUp result))
      (Function.update flight f { flight f with waiters := waiters, cancelled := cancelled })
      (fun k => if waiters = 0 ∧ k = key ∧ registered k = some f then none else registered k)
      started gone := by
  obtain ⟨unstarted, known, counted, live, single, stopped, announced, received', left, gone',
    goneLeft⟩ := coalesced
  have here : (phase client).At key f := leaves ▸ ⟨rfl, rfl⟩
  obtain ⟨made, keyed⟩ := known client key f here
  obtain ⟨present, members, card⟩ := counted f made
  have member : client ∈ present := (members client).mpr ⟨key, here⟩
  have counted' : ((present.erase client).card : ℤ) = waiters := by
    rw [Finset.cast_card_erase_of_mem member, card, fewer]
  have nonneg : 0 ≤ waiters := counted' ▸ Int.natCast_nonneg _
  have stays : ∀ c k g, (Function.update phase client (.left f gaveUp result) c).At k g ↔
      c ≠ client ∧ (phase c).At k g := by
    intro c k g
    rw [Function.update_apply]
    split_ifs with same
    · simp [same, ClientPhase.At]
    · simp [same]
  refine ⟨?_, ?_, fun g before => ?_, ?_, ?_, ?_, ?_, ?_, ?_, ?_, ?_⟩
  · simp only [Function.update_apply]
    grind
  · intro c k g at'
    have old := known c k g ((stays c k g).mp at').2
    simp only [Function.update_apply]
    grind
  · by_cases same : g = f
    · subst same
      refine ⟨present.erase client, fun c => ?_, by rw [Function.update_self, counted']⟩
      rw [Finset.mem_erase, members c]
      simp only [stays, exists_and_left]
    · obtain ⟨others, members', card'⟩ := counted g before
      refine ⟨others, fun c => ?_, by rw [card', Function.update_of_ne same]⟩
      rw [members' c]
      simp only [stays, exists_and_left]
      refine ⟨fun ⟨k, at'⟩ => ⟨fun is => ?_, k, at'⟩, fun ⟨_, at'⟩ => at'⟩
      rw [is, leaves] at at'
      exact same at'.2
  all_goals simp only [Function.update_apply]
  · grind
  · grind
  · grind
  · grind
  · grind
  · grind
  · grind
  · grind

omit [DecidableEq Client] in
/-- A flight changes neither its tile nor its waiters. -/
theorem setFlight (coalesced : Coalesced phase flight registered started gone) {f : ℕ}
    {next : TileFlight} {registered' : TileCacheKey → Option ℕ}
    (open' : (flight f).fill ≠ .finished) (key : next.key = (flight f).key)
    (waiters : next.waiters = (flight f).waiters)
    (announced : next.done = true ↔ next.fill = .completed ∨ next.fill = .finished)
    (kept : (flight f).done = true → next.done = true ∧ next.result = (flight f).result)
    (stopped : next.cancelled = true → (flight f).cancelled = true ∨ next.done = true)
    (unregistered : ∀ k, registered' k = if next.done = true ∧ registered k = some f then none
      else registered k) :
    Coalesced phase (Function.update flight f next) registered' started gone := by
  obtain ⟨unstarted, known, counted, live, single, stopped', announced', received, left, gone',
    goneLeft⟩ := coalesced
  have made : f < started := Nat.lt_of_not_le fun later => open' (unstarted f later)
  refine ⟨?_, ?_, fun g before => ?_, ?_, ?_, ?_, ?_, ?_, ?_, gone', goneLeft⟩
  · simp only [Function.update_apply]
    grind
  · simp only [Function.update_apply]
    grind
  · obtain ⟨present, members, card⟩ := counted g before
    refine ⟨present, members, ?_⟩
    rw [Function.update_apply]
    split_ifs with here
    · rw [waiters, card, here]
    · exact card
  all_goals simp only [Function.update_apply]
  · grind
  · grind
  · grind
  · grind
  · grind
  · grind

theorem cancel (coalesced : Coalesced phase flight registered started gone) (client : Client) :
    Coalesced phase flight registered started (Function.update gone client true) where
  __ := coalesced
  gaveUp c key f leaving := by
    rw [Function.update_apply]
    split_ifs
    · rfl
    · exact coalesced.gaveUp c key f leaving
  gaveUpLeft c f result gone := by
    rw [Function.update_apply]
    split_ifs
    · rfl
    · exact coalesced.gaveUpLeft c f result gone

end Coalesced

namespace TileCache

variable {Client : Type} [DecidableEq Client]

/-- The requests and the flights of a cache are in order. -/
def Orderly (tc : TileCache Client) : Prop :=
  Coalesced tc.phase tc.flight tc.flights.lookup tc.started tc.gone

/-- The tiles in memory are no more than they may be, and some may be there. -/
def Bounded (tc : TileCache Client) : Prop :=
  0 < tc.memMax ∧ (tc.mem.entries.length : ℤ) ≤ tc.memMax

omit [DecidableEq Client] in
theorem lookup_unregister (tc : TileCache Client) (key : TileCacheKey) (f : ℕ) :
    (tc.unregister key f).flights.lookup = fun k =>
      if k = key ∧ tc.flights.lookup k = some f then none else tc.flights.lookup k := by
  funext k
  unfold unregister
  split_ifs with found here here
  · rw [here.1, AList.lookup_erase]
  · have other : k ≠ key := fun same => here ⟨same, same ▸ found⟩
    rw [AList.lookup_erase_ne other]
  · exact absurd (here.1 ▸ here.2) found
  · rfl

omit [DecidableEq Client] in
/-- Registrations aside, unregistering changes nothing that flights and requests read. -/
theorem unregister_rest (tc : TileCache Client) (key : TileCacheKey) (f : ℕ) :
    (tc.unregister key f).phase = tc.phase ∧ (tc.unregister key f).flight = tc.flight ∧
      (tc.unregister key f).started = tc.started ∧ (tc.unregister key f).gone = tc.gone ∧
      (tc.unregister key f).mem = tc.mem ∧ (tc.unregister key f).memMax = tc.memMax := by
  unfold unregister
  split_ifs <;> exact ⟨rfl, rfl, rfl, rfl, rfl, rfl⟩

variable {tc : TileCache Client}

theorem Orderly.pass (orderly : tc.Orderly) {client : Client} {next : ClientPhase}
    (apart : ∀ key f, ¬ (tc.phase client).At key f) (apart' : ∀ key f, ¬ next.At key f)
    (unjoined : ∀ f gaveUp result, next ≠ .left f gaveUp result) : (tc.move client next).Orderly :=
  Coalesced.pass orderly apart apart' unjoined

theorem Orderly.loadTile (orderly : tc.Orderly) {client : Client} {cfg : TileSettings}
    {key : TileCacheKey} (enters : tc.phase client = .entering cfg key) (now : Time) :
    (tc.loadTile client cfg key now).Orderly := by
  have apart : ∀ k g, ¬ (tc.phase client).At k g := by
    simp [enters, ClientPhase.At]
  unfold TileCache.loadTile
  split
  · exact orderly.pass apart (by simp [ClientPhase.At]) (by simp)
  · split
    next f found => exact Coalesced.join orderly apart found
    next missing =>
      have started := Coalesced.start orderly cfg apart missing ⟨[], "", ""⟩
      unfold Orderly join start TileCache.move TileCache.setFlight
      dsimp only
      rw [Function.update_self, Function.update_idem, zero_add]
      convert started using 1
      funext k
      split_ifs with here
      · rw [here, AList.lookup_insert]
      · rw [AList.lookup_insert_ne here]

theorem Orderly.leaveTileFlight (orderly : tc.Orderly) {client : Client} {key : TileCacheKey}
    {f : ℕ} {gaveUp : Bool} (leaves : tc.phase client = .leaving key f gaveUp)
    {result : TileResult} (received : gaveUp = false → result = (tc.flight f).result) :
    ((tc.leaveTileFlight key f).move client (.left f gaveUp result)).Orderly := by
  have left (cancelled : Bool) := @Coalesced.leave Client _ _ _ _ _ _ orderly client key f gaveUp
    leaves result received _ rfl cancelled
  unfold TileCache.leaveTileFlight
  dsimp only
  split_ifs with last
  · have left := left true (by rw [if_pos last])
    unfold Orderly TileCache.move
    dsimp only
    obtain ⟨phase, flight, started, gone, -, -⟩ := (tc.setFlight f { tc.flight f with
      waiters := (tc.flight f).waiters - 1, cancelled := true }).unregister_rest key f
    rw [lookup_unregister, phase, flight, started, gone]
    simpa only [last, true_and, TileCache.setFlight] using left
  · have left := left (tc.flight f).cancelled (by rw [if_neg last])
    simp only [last, false_and, if_false] at left
    exact left

omit [DecidableEq Client] in
/-- The goroutine of a flight goes on before it announces the result. -/
theorem Orderly.advance (orderly : tc.Orderly) {f : ℕ} {fill : FillPhase}
    (before : (tc.flight f).fill ≠ .completed ∧ (tc.flight f).fill ≠ .finished)
    (after : fill ≠ .completed ∧ fill ≠ .finished) : (tc.advance f fill).Orderly := by
  have made : f < tc.started := Nat.lt_of_not_le fun later => before.2 (orderly.unstarted f later)
  have running : (tc.flight f).done = false := eq_false_of_ne_true fun done =>
    ((orderly.announced f made).mp done).elim before.1 before.2
  refine Coalesced.setFlight orderly before.2 rfl rfl ?_ ?_ Or.inl fun k => ?_
  · simp only [running, after, Bool.false_eq_true, or_self]
  · exact fun done => ⟨done, rfl⟩
  · dsimp only
    rw [running, if_neg fun both => Bool.false_ne_true both.1]
    rfl

omit [DecidableEq Client] in
theorem Orderly.fillTile (orderly : tc.Orderly) {f : ℕ} {result : TileResult}
    (read : (tc.flight f).fill = .read result) : (tc.fillTile f result).Orderly := by
  have made : f < tc.started := Nat.lt_of_not_le fun later => by
    have fill := orderly.unstarted f later
    rw [read] at fill
    cases fill
  have running : (tc.flight f).done ≠ true := fun done => by
    rcases (orderly.announced f made).mp done with fill | fill <;> rw [read] at fill <;> cases fill
  unfold TileCache.fillTile Orderly
  dsimp only
  obtain ⟨phase, flight, started, gone, -, -⟩ := (tc.setFlight f { tc.flight f with
    fill := .completed, done := true, result := result }).unregister_rest (tc.flight f).key f
  rw [lookup_unregister, phase, flight, started, gone]
  refine Coalesced.setFlight orderly ?_ rfl rfl (iff_of_true rfl (Or.inl rfl))
    (fun done => absurd done running) Or.inl fun k => ?_
  · rw [read]
    exact fun other => nomatch other
  · change (if k = (tc.flight f).key ∧ tc.flights.lookup k = some f then none
      else tc.flights.lookup k) = _
    by_cases found : tc.flights.lookup k = some f
    · rw [if_pos ⟨(orderly.live k f found).2.1.symm, found⟩, if_pos ⟨rfl, found⟩]
    · rw [if_neg fun both => found both.2, if_neg fun both => found both.2]

omit [DecidableEq Client] in
theorem Orderly.cancelFilled (orderly : tc.Orderly) {f : ℕ}
    (completed : (tc.flight f).fill = .completed) :
    (tc.setFlight f { tc.flight f with cancelled := true, fill := .finished }).Orderly := by
  have made : f < tc.started := Nat.lt_of_not_le fun later => by
    have fill := orderly.unstarted f later
    rw [completed] at fill
    cases fill
  have done : (tc.flight f).done = true := (orderly.announced f made).mpr (Or.inl completed)
  refine Coalesced.setFlight orderly ?_ rfl rfl (iff_of_true done (Or.inr rfl))
    (fun done => ⟨done, rfl⟩) (fun _ => Or.inr done) fun k => ?_
  · rw [completed]
    exact fun other => nomatch other
  · refine (if_neg fun both => ?_).symm
    exact Bool.false_ne_true ((orderly.live k f both.2).2.2.2.1.symm.trans done)

variable {toLower : Char → Char} {digest : String → String} {isOSMStandardTileURL : String → Bool}

/-- Every step keeps the requests and the flights in order. -/
theorem Orderly.step (orderly : tc.Orderly) (event : TileEvent Client) :
    (tc.step toLower digest isOSMStandardTileURL event).Orderly := by
  cases event with
  | serveHTTP client z x y =>
      simp only [TileCache.step]
      split
      next idle =>
        have apart : ∀ k g, ¬ (tc.phase client).At k g := by simp [idle, ClientPhase.At]
        unfold TileCache.serveHTTP
        split_ifs
        all_goals exact orderly.pass apart (by simp [ClientPhase.At]) (by simp)
      · exact orderly
  | getFromMem client now =>
      simp only [TileCache.step]
      split
      next cfg key phase =>
        have apart : ∀ k g, ¬ (tc.phase client).At k g := by simp [phase, ClientPhase.At]
        unfold TileCache.getFromMem
        split
        all_goals exact orderly.pass apart (by simp [ClientPhase.At]) (by simp)
      · exact orderly
  | checkContext client =>
      simp only [TileCache.step]
      split
      next cfg key phase =>
        have apart : ∀ k g, ¬ (tc.phase client).At k g := by simp [phase, ClientPhase.At]
        split_ifs
        all_goals exact orderly.pass apart (by simp [ClientPhase.At]) (by simp)
      · exact orderly
  | loadTile client now =>
      simp only [TileCache.step]
      split
      next cfg key enters => exact orderly.loadTile enters now
      · exact orderly
  | cancel client => exact Coalesced.cancel orderly client
  | giveUp client =>
      simp only [TileCache.step]
      split
      next key f waits =>
        split_ifs with gone
        · exact Coalesced.decide orderly waits gone
        · exact orderly
      · exact orderly
  | receive client =>
      simp only [TileCache.step]
      split
      next key f waits =>
        split_ifs with done
        · exact Coalesced.decide orderly waits done
        · exact orderly
      · exact orderly
  | leaveTileFlight client =>
      simp only [TileCache.step]
      split
      next key f leaves => exact orderly.leaveTileFlight leaves fun other => nomatch other
      next key f leaves => exact orderly.leaveTileFlight leaves fun _ => rfl
      · exact orderly
  | findTile f data contentType =>
      simp only [TileCache.step]
      split
      next fill =>
        split_ifs
        · exact orderly
        · exact orderly.advance (by simp [fill]) (by simp)
      · exact orderly
  | fetchTile f data contentType =>
      simp only [TileCache.step]
      split
      next fill =>
        split_ifs
        · exact orderly
        · exact orderly.advance (by simp [fill]) (by simp)
      · exact orderly
  | failTile f failure =>
      simp only [TileCache.step]
      split
      next fill => exact orderly.advance (by simp [fill]) (by simp)
      · exact orderly
  | countFound f =>
      simp only [TileCache.step]
      split
      next data contentType fill => exact orderly.advance (by simp [fill]) (by simp)
      · exact orderly
  | setInMem f called now sort =>
      simp only [TileCache.step]
      split
      next data contentType fetched fill =>
        exact orderly.advance (by simp [fill]) (by cases fetched <;> simp)
      · exact orderly
  | countFetch f =>
      simp only [TileCache.step]
      split
      next data contentType fill => exact orderly.advance (by simp [fill]) (by simp)
      · exact orderly
  | fillTile f =>
      simp only [TileCache.step]
      split
      next result read => exact orderly.fillTile read
      · exact orderly
  | cancelFilled f =>
      simp only [TileCache.step]
      split
      next completed => exact orderly.cancelFilled completed
      · exact orderly
  | update cfg =>
      simp only [TileCache.step, TileCache.update]
      split_ifs
      · exact orderly
      · exact orderly
  | evictMem now sort =>
      simp only [TileCache.step, TileCache.evictMem]
      split_ifs
      · exact orderly
      · exact orderly

/-! ## The tiles in memory -/

theorem length_keep_le (m : TileMem) (p : TileCacheKey × TileMemEntry → Bool) :
    (m.keep p).entries.length ≤ m.entries.length :=
  List.length_filter_le p m.entries

theorem length_insert_le (m : TileMem) (key : TileCacheKey) (entry : TileMemEntry) :
    (m.insert key entry).entries.length ≤ m.entries.length + 1 :=
  Nat.succ_le_succ (length_keep_le m _)

/-- The oldest tile is deleted, if there is one. -/
theorem length_dropOldest_lt {m : TileMem} (sort : TileSort) (occupied : m.entries ≠ []) :
    (m.dropOldest sort).entries.length < m.entries.length := by
  set listed := m.entries.map fun kv => (⟨kv.1, kv.2.expiresAt⟩ : TileKV)
  have perm : (sort.sort listed).Perm listed := sort.perm listed
  cases sorted : sort.sort listed with
  | nil =>
      rw [sorted] at perm
      exact absurd (List.map_eq_nil_iff.mp perm.nil_eq.symm) occupied
  | cons oldest rest =>
      have member : oldest ∈ listed := perm.subset (sorted ▸ List.mem_cons_self)
      obtain ⟨kv, entry, rfl⟩ := List.mem_map.mp member
      refine List.length_filter_lt_length_iff_exists.mpr ⟨kv, entry, ?_⟩
      have first : kv.1 ∈ ((sort.sort listed).take
          (max 1 ((sort.sort listed).length / 4))).map TileKV.k := by
        rw [sorted, ← Nat.succ_pred (Nat.pos_iff_ne_zero.mp (lt_max_of_lt_left Nat.one_pos)),
          List.take_succ_cons]
        exact List.mem_map_of_mem List.mem_cons_self
      exact fun kept => of_decide_eq_true kept first

omit [DecidableEq Client] in
theorem Bounded.setInMem (bounded : tc.Bounded) (key : TileCacheKey) (data : List UInt8)
    (contentType : String) (called now : Time) (sort : TileSort) :
    (tc.setInMem key data contentType called now sort).Bounded := by
  refine ⟨bounded.1, ?_⟩
  unfold TileCache.setInMem
  dsimp only
  refine (Int.ofNat_le.mpr (length_insert_le _ _ _)).trans ?_
  push_cast
  split_ifs with full still
  · have occupied : (tc.mem.purge now).entries ≠ [] := by
      intro empty
      rw [empty] at still
      exact absurd bounded.1 (not_lt.mpr still)
    have fewer := length_dropOldest_lt sort occupied
    have purged : (tc.mem.purge now).entries.length ≤ tc.mem.entries.length := length_keep_le _ _
    have := bounded.2
    omega
  · omega
  · omega

omit [DecidableEq Client] in
theorem Bounded.evictMem (bounded : tc.Bounded) (now : Time) (sort : TileSort) :
    (tc.evictMem now sort).Bounded := by
  have purged : (tc.mem.purge now).entries.length ≤ tc.mem.entries.length := length_keep_le _ _
  have fewer : ((tc.mem.purge now).dropOldest sort).entries.length ≤
      (tc.mem.purge now).entries.length := length_keep_le _ _
  have := bounded.2
  unfold TileCache.evictMem
  dsimp only
  split_ifs with fits
  · exact ⟨bounded.1, fits⟩
  · exact ⟨bounded.1, by dsimp only; omega⟩

theorem memMax_pos (cfg : TileSettings) : 0 < cfg.memMax := by
  unfold TileSettings.memMax
  split_ifs with unset
  · decide
  · exact not_le.mp unset

omit [DecidableEq Client] in
theorem Bounded.update (bounded : tc.Bounded) (cfg : TileSettings) :
    (tc.update toLower digest isOSMStandardTileURL cfg).Bounded := by
  unfold TileCache.update
  dsimp only
  split_ifs
  · exact ⟨memMax_pos cfg, (memMax_pos cfg).le⟩
  · exact bounded

omit [DecidableEq Client] in
/-- What happens to flights does not touch the tiles in memory. -/
theorem Bounded.unregister (bounded : tc.Bounded) (f : ℕ) (flight : TileFlight)
    (key : TileCacheKey) : ((tc.setFlight f flight).unregister key f).Bounded := by
  obtain ⟨-, -, -, -, mem, memMax⟩ := (tc.setFlight f flight).unregister_rest key f
  unfold Bounded
  rw [mem, memMax]
  exact bounded

omit [DecidableEq Client] in
theorem Bounded.leaveTileFlight (bounded : tc.Bounded) (key : TileCacheKey) (f : ℕ) :
    (tc.leaveTileFlight key f).Bounded := by
  unfold TileCache.leaveTileFlight
  dsimp only
  split_ifs
  · exact bounded.unregister f _ key
  · exact bounded

theorem Bounded.loadTile (bounded : tc.Bounded) (client : Client) (cfg : TileSettings)
    (key : TileCacheKey) (now : Time) : (tc.loadTile client cfg key now).Bounded := by
  unfold TileCache.loadTile
  split
  · exact bounded
  · split <;> exact bounded

theorem Bounded.serveHTTP (bounded : tc.Bounded) (client : Client) (z x y : ℤ) :
    (tc.serveHTTP client z x y).Bounded := by
  unfold TileCache.serveHTTP
  split_ifs <;> exact bounded

theorem Bounded.getFromMem (bounded : tc.Bounded) (client : Client) (cfg : TileSettings)
    (key : TileCacheKey) (now : Time) : (tc.getFromMem client cfg key now).Bounded := by
  unfold TileCache.getFromMem
  split <;> exact bounded

/-- Every step keeps the bound. -/
theorem Bounded.step (bounded : tc.Bounded) (event : TileEvent Client) :
    (tc.step toLower digest isOSMStandardTileURL event).Bounded := by
  cases event with
  | update cfg => exact bounded.update cfg
  | evictMem now sort => exact bounded.evictMem now sort
  | cancel client => exact bounded
  | setInMem f called now sort =>
      simp only [TileCache.step]
      split
      · exact bounded.setInMem _ _ _ called now sort
      · exact bounded
  | leaveTileFlight client =>
      simp only [TileCache.step]
      split
      · exact bounded.leaveTileFlight _ _
      · exact bounded.leaveTileFlight _ _
      · exact bounded
  | fillTile f =>
      simp only [TileCache.step]
      split
      · exact bounded.unregister f _ _
      · exact bounded
  | loadTile client now =>
      simp only [TileCache.step]
      split
      · exact bounded.loadTile client _ _ now
      · exact bounded
  | serveHTTP client z x y =>
      simp only [TileCache.step]
      split
      · exact bounded.serveHTTP client z x y
      · exact bounded
  | getFromMem client now =>
      simp only [TileCache.step]
      split
      · exact bounded.getFromMem client _ _ now
      · exact bounded
  | checkContext client =>
      simp only [TileCache.step]
      split
      · split_ifs <;> exact bounded
      · exact bounded
  | giveUp client | receive client =>
      simp only [TileCache.step]
      split
      · split_ifs <;> exact bounded
      · exact bounded
  | findTile f data contentType | fetchTile f data contentType =>
      simp only [TileCache.step]
      split
      · split_ifs <;> exact bounded
      · exact bounded
  | failTile f failure =>
      simp only [TileCache.step]
      split <;> exact bounded
  | countFound f | countFetch f | cancelFilled f =>
      simp only [TileCache.step]
      split <;> exact bounded

/-! ## Whole runs -/

omit [DecidableEq Client] in
theorem orderly_newTileCache (cfg : TileSettings) :
    (newTileCache toLower digest isOSMStandardTileURL cfg : TileCache Client).Orderly where
  unstarted _ _ := rfl
  known _ _ _ at' := at'.elim
  counted f made := absurd made (Nat.not_lt_zero f)
  live key f found := by
    rw [newTileCache, AList.lookup_empty] at found
    cases found
  single f made := absurd made (Nat.not_lt_zero f)
  stopped f made := absurd made (Nat.not_lt_zero f)
  announced f made := absurd made (Nat.not_lt_zero f)
  received _ _ _ leaving := nomatch leaving
  left _ _ _ left := nomatch left
  gaveUp _ _ _ leaving := nomatch leaving
  gaveUpLeft _ _ _ left := nomatch left

theorem run_always {invariant : TileCache Client → Prop}
    (keeps : ∀ tc event, invariant tc →
      invariant (tc.step toLower digest isOSMStandardTileURL event))
    (cfg : TileSettings) (events : List (TileEvent Client))
    (start : invariant (newTileCache toLower digest isOSMStandardTileURL cfg)) :
    invariant (run toLower digest isOSMStandardTileURL cfg events) :=
  List.foldlRecOn events (step toLower digest isOSMStandardTileURL) start
    fun tc kept event _ => keeps tc event kept

/-- **Requests and flights are in order at every moment.** -/
theorem coalesced_run (cfg : TileSettings) (events : List (TileEvent Client)) :
    (run toLower digest isOSMStandardTileURL cfg events).Orderly :=
  run_always (fun _ event orderly => orderly.step event) cfg events (orderly_newTileCache cfg)

/-- **The tiles in memory are never more than they may be.** -/
theorem bounded_run (cfg : TileSettings) (events : List (TileEvent Client)) :
    (run toLower digest isOSMStandardTileURL cfg events).Bounded :=
  run_always (fun _ event bounded => bounded.step event) cfg events
    ⟨memMax_pos cfg, (memMax_pos cfg).le⟩

/-! ## Registrations -/

omit [DecidableEq Client] in
/-- Unregistering a flight leaves the registrations of the others. -/
theorem unregister_keeps (tc : TileCache Client) {key k : TileCacheKey} {f g : ℕ}
    (found : tc.flights.lookup k = some g) :
    (tc.unregister key f).flights.lookup k = some g ∨ g = f := by
  have removed := congrFun (lookup_unregister tc key f) k
  split_ifs at removed with here
  · exact Or.inr (Option.some.inj (found.symm.trans here.2))
  · exact Or.inl (removed.trans found)

theorem loadTile_keeps {client : Client} {cfg : TileSettings} {key k : TileCacheKey} {now : Time}
    {g : ℕ} (found : tc.flights.lookup k = some g) :
    (tc.loadTile client cfg key now).flights.lookup k = some g := by
  unfold TileCache.loadTile
  split
  · exact found
  · split
    next f _ => exact found
    next missing =>
      have other : k ≠ key := fun same => by
        rw [same, missing] at found
        cases found
      exact (AList.lookup_insert_ne other).trans found

omit [DecidableEq Client] in
/-- A flight is unregistered by a waiter only if it is the last one. -/
theorem leaveTileFlight_keeps {key k : TileCacheKey} {f g : ℕ}
    (found : tc.flights.lookup k = some g) :
    (tc.leaveTileFlight key f).flights.lookup k = some g ∨ g = f ∧ (tc.flight f).waiters = 1 := by
  unfold TileCache.leaveTileFlight
  dsimp only
  split_ifs with last
  · refine (unregister_keeps (tc.setFlight f _) found).imp_right fun same => ⟨same, ?_⟩
    exact sub_eq_zero.mp last
  · exact Or.inl found

/-- A registration ends in two ways only: the flight completes, or its last waiter leaves. -/
theorem step_keeps (event : TileEvent Client) {key : TileCacheKey} {g : ℕ}
    (found : tc.flights.lookup key = some g) :
    (tc.step toLower digest isOSMStandardTileURL event).flights.lookup key = some g ∨
      event = .fillTile g ∨ ∃ client k gaveUp, event = .leaveTileFlight client ∧
        tc.phase client = .leaving k g gaveUp ∧ (tc.flight g).waiters = 1 := by
  cases event with
  | leaveTileFlight client =>
      simp only [TileCache.step]
      split
      next k f leaves =>
        refine (leaveTileFlight_keeps found).imp_right fun ⟨same, last⟩ => Or.inr ?_
        exact ⟨client, k, true, rfl, same ▸ leaves, same ▸ last⟩
      next k f leaves =>
        refine (leaveTileFlight_keeps found).imp_right fun ⟨same, last⟩ => Or.inr ?_
        exact ⟨client, k, false, rfl, same ▸ leaves, same ▸ last⟩
      · exact Or.inl found
  | fillTile f =>
      simp only [TileCache.step]
      split
      · refine (unregister_keeps (tc.setFlight f _) found).imp_right fun same => Or.inl ?_
        rw [same]
      · exact Or.inl found
  | loadTile client now =>
      simp only [TileCache.step]
      split
      · exact Or.inl (loadTile_keeps found)
      · exact Or.inl found
  | serveHTTP client z x y =>
      simp only [TileCache.step, TileCache.serveHTTP]
      split
      · split_ifs <;> exact Or.inl found
      · exact Or.inl found
  | getFromMem client now =>
      simp only [TileCache.step, TileCache.getFromMem]
      split
      · split <;> exact Or.inl found
      · exact Or.inl found
  | update cfg =>
      simp only [TileCache.step, TileCache.update]
      split_ifs <;> exact Or.inl found
  | evictMem now sort =>
      simp only [TileCache.step, TileCache.evictMem]
      split_ifs <;> exact Or.inl found
  | cancel client => exact Or.inl found
  | checkContext client | giveUp client | receive client =>
      simp only [TileCache.step]
      split
      · split_ifs <;> exact Or.inl found
      · exact Or.inl found
  | findTile f data contentType | fetchTile f data contentType =>
      simp only [TileCache.step]
      split
      · split_ifs <;> exact Or.inl found
      · exact Or.inl found
  | failTile f failure =>
      simp only [TileCache.step]
      split <;> exact Or.inl found
  | setInMem f called now sort =>
      simp only [TileCache.step]
      split <;> exact Or.inl found
  | countFound f | countFetch f | cancelFilled f =>
      simp only [TileCache.step]
      split <;> exact Or.inl found

/-- Whoever joins a flight joins one that is not cancelled. -/
theorem Orderly.joins_live (orderly : tc.Orderly) {client : Client} {cfg : TileSettings}
    {key k : TileCacheKey} {now : Time} {f : ℕ} (enters : tc.phase client = .entering cfg key)
    (joined : (tc.step toLower digest isOSMStandardTileURL (.loadTile client now)).phase client =
      .waiting k f) :
    ((tc.step toLower digest isOSMStandardTileURL (.loadTile client now)).flight f).cancelled =
      false ∧ (f < tc.started → (tc.flight f).cancelled = false ∧ (tc.flight f).done = false) := by
  simp only [TileCache.step, enters, TileCache.loadTile] at joined ⊢
  split at joined
  next e hit =>
    simp only [TileCache.hit, TileCache.move, Function.update_self, reduceCtorEq] at joined
  next fresh =>
    split at joined
    next g found =>
      simp only [TileCache.join, TileCache.move, Function.update_self,
        ClientPhase.waiting.injEq] at joined
      obtain ⟨rfl, rfl⟩ := joined
      obtain ⟨-, -, alive, running, -⟩ := orderly.live key g found
      refine ⟨?_, fun _ => ⟨alive, running⟩⟩
      simp only [TileCache.join, TileCache.move, TileCache.setFlight, Function.update_self]
      exact alive
    next missing =>
      simp only [TileCache.join, TileCache.move, Function.update_self,
        ClientPhase.waiting.injEq] at joined
      obtain ⟨rfl, rfl⟩ := joined
      refine ⟨?_, fun older => absurd older (lt_irrefl _)⟩
      simp only [TileCache.join, TileCache.start, TileCache.move, TileCache.setFlight,
        Function.update_self]

omit [DecidableEq Client] in
/-- A flight that somebody waits for counts a waiter. -/
theorem Orderly.waiters_pos (orderly : tc.Orderly) {client : Client} {key : TileCacheKey} {f : ℕ}
    (at' : (tc.phase client).At key f) : 0 < (tc.flight f).waiters := by
  obtain ⟨present, members, card⟩ := orderly.counted f (orderly.known client key f at').1
  rw [← card]
  exact Int.natCast_pos.mpr (Finset.card_pos.mpr ⟨client, (members client).mpr ⟨key, at'⟩⟩)

end TileCache

end OsmMini.Cmd
