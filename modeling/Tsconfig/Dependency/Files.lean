/-
# The files that are found from files

A list of files is closed under what its files depend on.  The files that are given stay as they are
written and come first; two with the same `Route.key` count as one.
-/
import Tsconfig.Dependency.Closure
import Tsconfig.Dependency.Direct

namespace Tsconfig.Dependency

/-- The routes to the files that the file of a route depends on. -/
def directRoutes (fs : FileSystem) (extract : Extractor) (file : Route) : List Route :=
  (direct fs extract file).map Path.route

/-- Turns enough for a number of files to start from: every file that is found has a path of its own. -/
def turnLimit (fs : FileSystem) (count : Nat) : Nat := count + fs.pathBound

/-- The routes that are found from some routes and are none of them. -/
def discoveredRoutes (fs : FileSystem) (extract : Extractor) (seeds : List Route) : List Route :=
  discovered Route.key (directRoutes fs extract) (turnLimit fs seeds.length) seeds

/-- Some routes and all that are found from them. -/
def closeRoutes (fs : FileSystem) (extract : Extractor) (seeds : List Route) : List Route :=
  closure Route.key (directRoutes fs extract) (turnLimit fs seeds.length) seeds

/-- The same for paths. -/
def closePaths (fs : FileSystem) (extract : Extractor) (seeds : List Path) : List Path :=
  (closeRoutes fs extract (seeds.map Path.route)).map Path.empty.follow

/-- The same for written paths. -/
def closeWritten (fs : FileSystem) (extract : Extractor) (seeds : List WrittenPath) :
    List WrittenPath :=
  seeds ++ (discoveredRoutes fs extract (seeds.map Route.parse)).map fun r =>
    (Path.empty.follow r).written

/-- The same for texts, as it is shown. -/
def closeTexts (fs : FileSystem) (extract : Extractor) (seeds : List String) : List String :=
  (closeWritten fs extract (seeds.map .ofText)).map WrittenPath.shown

theorem closeRoutes_eq (fs : FileSystem) (extract : Extractor) (seeds : List Route) :
    closeRoutes fs extract seeds = seeds ++ discoveredRoutes fs extract seeds := rfl

end Tsconfig.Dependency
