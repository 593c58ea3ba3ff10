import Geospatial.Analysis
import Geospatial.Bounds
import Geospatial.Buffer
import Geospatial.Cancellation
import Geospatial.Clustering
import Geospatial.Clustering.Agglomeration
import Geospatial.Clustering.Dbscan
import Geospatial.Clustering.KMeans
import Geospatial.Density
import Geospatial.Dissolve
import Geospatial.Fault
import Geospatial.Feature
import Geospatial.GeoJson.Shape
import Geospatial.GeoJson.Text
import Geospatial.Metric
import Geospatial.Geometry
import Geospatial.Geometry.Check
import Geospatial.Geometry.Shapes
import Geospatial.Grid
import Geospatial.Heap
import Geospatial.Hotspot
import Geospatial.Hull
import Geospatial.Index
import Geospatial.Index.Node
import Geospatial.Interpolation
import Geospatial.Variogram
import Geospatial.Json.Tree
import Geospatial.Json.Value
import Geospatial.LinearSystem
import Geospatial.Measure
import Geospatial.Network
import Geospatial.Network.PathSearch
import Geospatial.Network.Route
import Geospatial.Network.Search
import Geospatial.Number.Notation
import Geospatial.Number.Rounded
import Geospatial.Order
import Geospatial.Overlay
import Geospatial.Path
import Geospatial.Position
import Geospatial.Projection.Definition
import Geospatial.Projection.Developable
import Geospatial.Projection.Datum
import Geospatial.Projection.Helmert
import Geospatial.Projection.TransverseMercator
import Geospatial.Proofs.Bounds.Containment
import Geospatial.Proofs.Geometry.Equality
import Geospatial.Proofs.Order
import Geospatial.Proofs.Scalar.Double
import Geospatial.Proofs.Scalar.Order
import Geospatial.Proximity
import Geospatial.Query
import Geospatial.Query.Text
import Geospatial.ReferenceSystem.Catalogue
import Geospatial.Relation
import Geospatial.Scalar
import Geospatial.Scalar.Double
import Geospatial.Segment
import Geospatial.Settings
import Geospatial.Viewshed
import Geospatial.Simplification
import Geospatial.Terrain
import Geospatial.Terrain.Flow
import Geospatial.Text
import Geospatial.Toml
import Geospatial.Validation
import Geospatial.Validation.Report
import Geospatial.Where.Truth
import Geospatial.Where.Lexer
import Geospatial.Where.Parser
import Geospatial.Where.Token
import Geospatial.Proofs.Index.Tree
import Geospatial.Proofs.Index.Insertion
import Geospatial.Proofs.Index.Removal
import Geospatial.Proofs.Index.Store
import Geospatial.Proofs.Index.Run
import Geospatial.Proofs.Index.Shape
import Geospatial.Proofs.Relation.Laws
import Geospatial.Proofs.Query.Prefilter
import Geospatial.Proofs.Where.Grammar
import Geospatial.Proofs.Where.Parser
import Geospatial.Proofs.Heap
import Geospatial.Proofs.Scalar.Exact
import Geospatial.Proofs.Scalar.Real
import Geospatial.Proofs.Network.Changes
import Geospatial.Proofs.Network.Consistency
import Geospatial.Proofs.Network.Walk
import Geospatial.Proofs.Network.Labels
import Geospatial.Proofs.Network.BestFirst
import Geospatial.Proofs.Network.Cheapest
import Geospatial.Proofs.Network.Relaxation
import Geospatial.Proofs.Network.Contents
import Geospatial.Proofs.GeoJson.RoundTrip
import Geospatial.Proofs.Clustering.Renumbering
import Geospatial.Proofs.Clustering
import Geospatial.Proofs.Clustering.Metric
import Geospatial.Proofs.Clustering.Flood
import Geospatial.Proofs.Clustering.Dbscan
import Geospatial.Proofs.Segment.Between
import Geospatial.Proofs.Hull.Angle
import Geospatial.Proofs.Hull.Scan
import Geospatial.Proofs.Hull.Ring
import Geospatial.Proofs.Where.Expansion
import Geospatial.Proofs.Relation.Reflexive
import Geospatial.Proofs.Outcome
import Geospatial.Proofs.Grid
import Geospatial.Proofs.Grid.Lookup
import Geospatial.Proofs.LinearSystem
import Geospatial.Proofs.Interpolation.Kriging
import Geospatial.Proofs.Scalar.Rounding
import Geospatial.Proofs.Scalar.DoubleOrder
import Geospatial.Proofs.Terrain.Descent
import Geospatial.Proofs.Terrain.Drain
import Geospatial.Proofs.Terrain.Accumulation
import Geospatial.Proofs.Terrain.Conservation
import Geospatial.Proofs.Validation.Agreement
import Geospatial.Proofs.Ring.Ray
import Geospatial.Proofs.Geometry.Nearness
import Geospatial.Proofs.Relation.BoxTest
import Geospatial.Proofs.Ring.Cycle
import Geospatial.Proofs.Ring.HalfPlanes
import Geospatial.Proofs.Ring.Symmetry
import Geospatial.Proofs.Ring.Convex
import Geospatial.Proofs.Hull.Cover
import Geospatial.Proofs.Overlay
import Geospatial.Proofs.Forest
import Geospatial.Proofs.Dissolve
import Geospatial.Proofs.Segment.Meeting
import Geospatial.Proofs.Scalar.DoubleValue
import Geospatial.Proofs.Scalar.DoubleRounding
import Geospatial.Proofs.Scalar.DoubleArithmetic
import Geospatial.Proofs.Index.Nearest
import Geospatial.Proofs.Scalar.DoubleUnits
import Geospatial.Proofs.Query.Ordering
import Geospatial.Proofs.Where.Definite
import Geospatial.Proofs.Where.Spelling
import Geospatial.Proofs.Where.Pattern
import Geospatial.Proofs.Where.Nesting
import Geospatial.Proofs.Network.ServiceArea
import Geospatial.Proofs.Network.SimplePaths
import Geospatial.Proofs.Network.Tour
import Geospatial.Proofs.Scalar.Mean
import Geospatial.Proofs.Clustering.Density
import Geospatial.Proofs.Clustering.KMeans
import Geospatial.Proofs.Clustering.Linkage
import Geospatial.Simplification.ChordSearch
import Geospatial.Proofs.Clustering.Silhouette
import Geospatial.Proofs.Simplification.Tolerance
import Geospatial.Proofs.Segment.Intersection
import Geospatial.Proofs.Simplification.Structure
import Geospatial.Proofs.Scalar.DoubleError
import Geospatial.Proofs.Scalar.DoubleLength
import Geospatial.Proofs.Scalar.DoubleReach
import Geospatial.Proofs.Scalar.DoubleSize
import Geospatial.Proofs.Buffer.Normals
import Geospatial.Proofs.Buffer.Rings
import Geospatial.Proofs.Buffer.Soundness
import Geospatial.Proofs.Measure.Rings
import Geospatial.Proofs.Measure.Rebuild
import Geospatial.Proofs.Measure.Invariance
import Geospatial.Proofs.Validation.Repair
import Geospatial.Proofs.SightLine
import Geospatial.Proofs.Viewshed
import Geospatial.Proofs.Interpolation.Samples
import Geospatial.Proofs.Interpolation.InverseDistance
import Geospatial.Proofs.Variogram
import Geospatial.Proofs.Density
import Geospatial.Proofs.LinearSystem.Singular
import Geospatial.Proofs.Interpolation.Units
import Geospatial.Proofs.Hotspot
import Geospatial.Proofs.Projection.Helmert
import Geospatial.Proofs.Projection.Zone
import Geospatial.Proofs.Projection.Parameters
import Geospatial.Proofs.Geometry.Traversal
import Geospatial.Proofs.Bounds.Proper
import Geospatial.Proofs.Heap.Arrangement
import Geospatial.Proofs.Network.Answer
import Geospatial.Proofs.Query.Unbounded
import Geospatial.Proofs.Scalar.DoubleSum
import Geospatial.Proofs.Simplification.Area
import Geospatial.Proofs.Simplification.Spike
import Geospatial.Proofs.Simplification.Smoothing
import Geospatial.Proofs.Simplification.Refinement
import Geospatial.Proofs.Clustering.Numbering
import Geospatial.Proofs.Grid.Places
import Geospatial.Proofs.Proximity
