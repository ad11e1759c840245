import Decompiler.Structure.Chain
import Decompiler.Structure.Conditional
import Decompiler.Structure.Exit
import Decompiler.Structure.Loop

/-!
Building the tree of a region.
-/

namespace Decompiler

namespace Context

/-- Runs a step unless the depth exceeds the limit. -/
def limitDepth (cx : Context) (depth : Nat) (step : TryFoldM Unit) : TryFoldM Unit :=
  if cx.config.maxDepth < depth then throw (.depthLimit cx.config.maxDepth) else step

def blockPiece (cx : Context) (id : BlockId) : Piece where
  region := .block id
  push depth := cx.limitDepth depth do
    if (← cx.tryIdioms [.block id]) = 0 then cx.pushBlock id
  pushBody _ := cx.pushBlockBody id

/-- The piece of a sequence, which ends in the branch of its last part. -/
def sequencePiece (cx : Context) (pieces : List Piece) : Piece where
  region := .sequence (pieces.map Piece.region)
  push depth := cx.limitDepth depth (cx.pushPieces depth 0 pieces)
  pushBody depth := do
    match pieces.getLast? with
    | none => return none
    | some last =>
      cx.pushPieces depth 0 pieces.dropLast
      last.pushBody (depth + 1)

/-- The piece of a control region, which never ends in a branch of its own. -/
def controlPiece (cx : Context) (region : Region) (step : Nat → TryFoldM Unit) : Piece where
  region
  push depth := cx.limitDepth depth (step depth)
  pushBody depth := do
    cx.limitDepth depth (step depth)
    return none

/-- How each kind of region is folded. -/
def pieceRules (cx : Context) : RegionRules Piece where
  block := cx.blockPiece
  sequence := cx.sequencePiece
  loop pieces := cx.controlPiece (.loop (pieces.map Piece.region)) (cx.pushLoop pieces)
  conditional arms alternative :=
    cx.controlPiece
      (.conditional (arms.map fun arm => ⟨arm.1.region, arm.2.region⟩)
        (alternative.map Piece.region))
      (cx.pushConditional arms alternative)
  chain pieces := cx.controlPiece (.chain (pieces.map Piece.region)) (cx.pushChain pieces)
  exit body dead :=
    cx.controlPiece (.exit body.region (dead.map Piece.region))
      (cx.pushExit body (dead.map Piece.region))

def piece (cx : Context) (region : Region) : Piece := region.fold cx.pieceRules

def build (cx : Context) (region : Region) : TryFoldM FormId := buildPiece (cx.piece region) 0

end Context

end Decompiler
