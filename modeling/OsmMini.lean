import OsmMini.Foundations.Literals
import OsmMini.Foundations.BinaryHeap
import OsmMini.Foundations.Machine
import OsmMini.Foundations.BestFirst
import OsmMini.Foundations.SearchLoop
import OsmMini.Foundations.ChainSearch
import OsmMini.Foundations.LittleEndian
import OsmMini.Foundations.Ranges
import OsmMini.Foundations.Binary64
import OsmMini.Foundations.Int64Order
import OsmMini.Foundations.Bits
import OsmMini.Foundations.CostTable
import OsmMini.Foundations.Window
import OsmMini.Foundations.ByteOrder
import OsmMini.Foundations.Varint
import OsmMini.Core.Types
import OsmMini.Core.Store.Format
import OsmMini.Core.Store.Bounds
import OsmMini.Core.Store.Open
import OsmMini.Core.Store.Reading
import OsmMini.Core.Store.Valid
import OsmMini.Core.Store.ValidChains
import OsmMini.Core.Store.Accepted
import OsmMini.Core.Store.Fields
import OsmMini.Core.Store.Safety
import OsmMini.Core.Store.Lookup
import OsmMini.Core.Routing.Options
import OsmMini.Core.Routing.NodeSearch
import OsmMini.Core.Routing.Transition
import OsmMini.Core.Routing.TurnSearch
import OsmMini.Cmd.Basic
import OsmMini.Cmd.Operations
import OsmMini.Cmd.ConfidentialObjects
import OsmMini.Cmd.Trip.Tsp
import OsmMini.Cmd.Trip.TspTable
import OsmMini.Cmd.Trip.TspExact
import OsmMini.Mobile.Search.Basic
import OsmMini.Mobile.Search.Data
import OsmMini.Mobile.Search.DataWritten
import OsmMini.Mobile.Search.DataRead
import OsmMini.Mobile.Search.DataFaithful
import OsmMini.Mobile.Search.Compact
import OsmMini.Mobile.Search.CompactWritten
import OsmMini.Mobile.Search.CompactRead
import OsmMini.Mobile.Search.CompactScan
import OsmMini.Mobile.Search.Postings
import OsmMini.Foundations.Text
import OsmMini.Foundations.StreamCoder
import OsmMini.Cmd.Compression.Encodings
import OsmMini.Cmd.Compression.Writer
import OsmMini.Cmd.Compression.Stages
import OsmMini.Cmd.Compression.Preserved
import OsmMini.Foundations.Slices
import OsmMini.Foundations.SortSlice
import OsmMini.Foundations.Cheapest
import OsmMini.Core.Work.Plan
import OsmMini.Core.Work.Decisions
import OsmMini.Foundations.Grouping
import OsmMini.Core.Work.Greedy
import OsmMini.Core.Pbf.Wire
import OsmMini.Core.Pbf.Packed
import OsmMini.Core.Import.Highways
import OsmMini.Core.Import.Adjacency
import OsmMini.Core.Import.Graph
import OsmMini.Core.Import.Window
import OsmMini.Core.Pbf.Tags
import OsmMini.Core.Pbf.Entities
import OsmMini.Core.Pbf.DataBlock
import OsmMini.Core.Pbf.Stream
import OsmMini.Core.Pbf.Errors
import OsmMini.Core.Pbf.Truncation
import OsmMini.Core.Pbf.SpatialIndex
import OsmMini.Core.Pbf.SpatialQueries
import OsmMini.Foundations.Buckets
import OsmMini.Core.Territory.Geometry
import OsmMini.Core.Territory.Store
import OsmMini.Core.Territory.Lookup
import OsmMini.Core.Address.Query
import OsmMini.Core.Address.Index
import OsmMini.Core.Address.Faithful
import OsmMini.Mobile.Poi.Cells
import OsmMini.Mobile.Search.Delivery
import OsmMini.Mobile.Poi.Catalog
import OsmMini.Mobile.Poi.Tiles
import OsmMini.Mobile.Poi.Placement
import OsmMini.Foundations.MergeRuns
import OsmMini.Mobile.Search.Sort
import OsmMini.Mobile.Search.Nodes
import OsmMini.Mobile.Search.NodesRead
import OsmMini.Mobile.Search.NodesFaithful
import OsmMini.Mobile.Search.NodesLookup
import OsmMini.Foundations.Firsts
import OsmMini.Foundations.GreatCircle
import OsmMini.Core.Snap.Router
import OsmMini.Core.Snap.Scan
import OsmMini.Core.Snap.Nearest
import OsmMini.Cmd.FireStations
import OsmMini.Cmd.TileFlights
import OsmMini.Bindings.Engines
import OsmMini.Apple.KmlDoctype
import OsmMini.Apple.MapTileCache
import OsmMini.Apple.Transfers
import OsmMini.Foundations.Json
import OsmMini.Cmd.GraphJson.Read
import OsmMini.Cmd.GraphJson.Export
import OsmMini.Cmd.Editor.Values
import OsmMini.Cmd.Editor.Drafts
import OsmMini.Cmd.Editor.Changes
import OsmMini.Cmd.Editor.Upload
import OsmMini.Cmd.Editor.Export
import OsmMini.Cmd.Editor.Workspace
import OsmMini.Cmd.Editor.History
import OsmMini.Cmd.Editor.Restorable
import OsmMini.Foundations.Rectangles
import OsmMini.Cmd.Editor.Ways
import OsmMini.Apple.DownloadProgress
import OsmMini.Apple.DownloadTransfer
import OsmMini.Core.Routing.Metrics
import OsmMini.Core.Routing.Maneuvers
import OsmMini.Foundations.ClosedWalk
import OsmMini.Core.Territory.Boundary
import OsmMini.Foundations.SegmentReversal
import OsmMini.Cmd.Trip.TspSearch
import OsmMini.Cmd.Trip.TspImprove
import OsmMini.Cmd.Trip.TspGreedy
import OsmMini.Cmd.Trip.SolveTrip
import OsmMini.Cmd.Trip.TripConsistency
import OsmMini.Foundations.TopEntries
import OsmMini.Core.Snap.Radius
import OsmMini.Core.Territory.Neighbors
import OsmMini.Core.Territory.NeighborBoxes
import OsmMini.Foundations.Directions
import OsmMini.Core.Routing.FastTurn
import OsmMini.Foundations.StableInsertion
import OsmMini.Core.Address.Ranking
import OsmMini.Mobile.ExactPlaces
import OsmMini.Cmd.Geo.Index
import OsmMini.Cmd.Geo.Nearby
import OsmMini.Cmd.Geo.Circle
import OsmMini.Foundations.Deletion
import OsmMini.Cmd.RouteCache
import OsmMini.Cmd.RouteRequests
import OsmMini.Cmd.Waterways.Grid
import OsmMini.Foundations.Clipping
import OsmMini.Cmd.Waterways.Clip
import OsmMini.Cmd.Waterways.Fragments
import OsmMini.Foundations.MergePasses
import OsmMini.Mobile.Search.NodeSort
import OsmMini.Mobile.Vector.Fields
import OsmMini.Mobile.Vector.Geometry
import OsmMini.Mobile.Vector.Drawing
import OsmMini.Mobile.Vector.Values
import OsmMini.Mobile.Vector.Exact
import OsmMini.Mobile.Vector.Feature
import OsmMini.Core.Labels.Distribute
import OsmMini.Core.Labels.Grid
import OsmMini.Foundations.Rounds
import OsmMini.Foundations.Timeline
import OsmMini.Foundations.ClosedLines
import OsmMini.Cmd.Rings
import OsmMini.Cmd.Manifests
import OsmMini.Foundations.LinkedBuckets
import OsmMini.Apple.Graphics
import OsmMini.Apple.LabelLayout
import OsmMini.Foundations.CountingSort
import OsmMini.Apple.TileIndex
import OsmMini.Foundations.Subdivision
import OsmMini.Cmd.Workbench.Collection
import OsmMini.Cmd.Workbench.Simplify
import OsmMini.Cmd.Workbench.Csv
import OsmMini.Cmd.Workbench.CsvFaithful
import OsmMini.Mobile.PlaceLabels
import OsmMini.Mobile.PlaceDetails
import OsmMini.Mobile.Search.Query
import OsmMini.Mobile.Engine
import OsmMini.Core.Routing.IndexLabels
import OsmMini.Core.Routing.AttributeCost
import OsmMini.Apple.MapRoute
import OsmMini.Apple.TileFallback
import OsmMini.Apple.HitGeometry
import OsmMini.Apple.PoiGroups
import OsmMini.Core.Pbf.PackedCount
import OsmMini.Core.Pbf.Encoding
import OsmMini.Core.Pbf.WrittenNodes
import OsmMini.Core.Pbf.WrittenBlocks
import OsmMini.Core.Pbf.WrittenFiles
import OsmMini.Core.Routing.ValueHeaps
