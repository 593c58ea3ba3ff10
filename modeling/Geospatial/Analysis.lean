import Geospatial.Clustering.Agglomeration
import Geospatial.Clustering.Dbscan
import Geospatial.Clustering.KMeans
import Geospatial.Clustering
import Geospatial.Hotspot
import Geospatial.Variogram
import Geospatial.Proximity
import Geospatial.Terrain
import Geospatial.Terrain.Flow
import Geospatial.Viewshed

/-! The analyses of scattered positions, of lines and of elevation grids together. -/
