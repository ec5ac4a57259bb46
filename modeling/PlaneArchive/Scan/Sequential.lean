import PlaneArchive.Scan.Expansion

/-! # Scanning in sequence

The inputs are expanded in order, then the paths that this brought up, and so on in waves. A path
that was found in a directory is longer than the path of that directory, and a path of too many
bytes leads nowhere. So after as many waves as a path may have bytes nothing is left.
-/
namespace PlaneArchive.Scan

def nextWave (tree : FileTree) (paths : List Path) : List Path :=
  paths.flatMap fun path => (Expansion.ofPath tree path).found

/-- The outcome of expanding `paths` and whatever they bring up within `waves` waves. -/
def runWaves (decoder : Gzip.MemberDecoder) (tree : FileTree) :
    (waves : Nat) → (paths : List Path) → ScanOutcome
  | 0, _ => {}
  | waves + 1, paths =>
    let expansions := paths.map (Expansion.ofPath tree)
    let found := expansions.flatMap Expansion.found
    let outcome := expansions.foldr (fun expansion rest => expansion.outcome decoder ++ rest) {}
    if found.isEmpty then outcome else outcome ++ runWaves decoder tree waves found

/-- Enough waves for every tree. -/
def waveLimit : Nat := Path.pathLimit

def run (decoder : Gzip.MemberDecoder) (tree : FileTree) (inputs : List Path) : ScanOutcome :=
  runWaves decoder tree waveLimit inputs

end PlaneArchive.Scan
