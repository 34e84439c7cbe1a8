import Splice.Project.Basic

/-!
# Watching a project

A project watches its own directory and the directories of its entry file and of
its standard library.
-/

namespace Splice.Project

def watchRoots (p : Project) : List Text :=
  Watch.roots ([p.paths.root, Path.dir p.paths.entry] ++
    if p.paths.stdlib.isEmpty then [] else [Path.dir p.paths.stdlib])

/-- Starts watching.  A project that cannot watch all its directories still has a
watcher. -/
def startWatching (p : Project) (disk : Disk) : Except Failure Unit × Project :=
  match Watcher.create true p.config.watch.excludeDirs with
  | .error e => (.error (.plain e.message), p)
  | .ok w =>
      match w.watchAll disk p.watchRoots with
      | .error e => (.error e, { p with watcher := some w })
      | .ok w => (.ok (), { p with watcher := some w })

end Splice.Project
