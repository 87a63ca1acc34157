import RankOne.Artifact.Artifact
import RankOne.Artifact.Envelope
import RankOne.Artifact.Files
import RankOne.Bytes.Codec
import RankOne.Bytes.Hex
import RankOne.Bytes.Sha256
import RankOne.Bytes.Word
import RankOne.Constraint.Builder
import RankOne.Constraint.CoefficientTable
import RankOne.Constraint.CompiledSystem
import RankOne.Constraint.Fingerprint
import RankOne.Constraint.FlatSystem
import RankOne.Constraint.Relation
import RankOne.Constraint.SystemError
import RankOne.Constraint.Term
import RankOne.Constraint.Wire
import RankOne.Curve.Bls12381
import RankOne.Curve.Bn254
import RankOne.Curve.Pairing
import RankOne.Curve.Point
import RankOne.Failure
import RankOne.Field.Coordinate
import RankOne.Field.Extension
import RankOne.Field.Power
import RankOne.Field.Prime
import RankOne.Field.TwoAdic
import RankOne.Groth16.Assembly
import RankOne.Groth16.Key
import RankOne.Groth16.Proof
import RankOne.Groth16.Prover
import RankOne.Groth16.Setup
import RankOne.Groth16.Verification
import RankOne.Polynomial.Domain
import RankOne.Polynomial.PowerTable
import RankOne.Polynomial.Quotient
import RankOne.Polynomial.Transform
import RankOne.Proofs.Artifact.Canonical
import RankOne.Proofs.Artifact.Capacity
import RankOne.Proofs.Artifact.Contents
import RankOne.Proofs.Artifact.Envelope
import RankOne.Proofs.Artifact.Opening
import RankOne.Proofs.Artifact.RoundTrip
import RankOne.Proofs.Bytes.Capacity
import RankOne.Proofs.Bytes.Codec
import RankOne.Proofs.Bytes.Hex
import RankOne.Proofs.Constraint.Admission
import RankOne.Proofs.Constraint.Builder
import RankOne.Proofs.Constraint.CoefficientHistory
import RankOne.Proofs.Constraint.CoefficientTable
import RankOne.Proofs.Constraint.Columns
import RankOne.Proofs.Constraint.Fingerprint
import RankOne.Proofs.Constraint.Narrowing
import RankOne.Proofs.Constraint.Numbering
import RankOne.Proofs.Constraint.Relation
import RankOne.Proofs.Constraint.Validation
import RankOne.Proofs.Curve.Bls12381
import RankOne.Proofs.Curve.Bn254
import RankOne.Proofs.Curve.Coordinate
import RankOne.Proofs.Curve.ScalarField
import RankOne.Proofs.Field.Ring
import RankOne.Proofs.Field.RootOfUnity
import RankOne.Proofs.Groth16.Acceptance
import RankOne.Proofs.Groth16.CheckedAssembly
import RankOne.Proofs.Groth16.Compatibility
import RankOne.Proofs.Groth16.Completeness
import RankOne.Proofs.Groth16.Exponents
import RankOne.Proofs.Groth16.Interchange
import RankOne.Proofs.Groth16.MatchingKeys
import RankOne.Proofs.Groth16.OtherDomains
import RankOne.Proofs.Groth16.Residual
import RankOne.Proofs.Groth16.WirePolynomials
import RankOne.Proofs.Groth16.ZeroKnowledge
import RankOne.Proofs.Outcome
import RankOne.Proofs.Polynomial.Coefficients
import RankOne.Proofs.Polynomial.Congruence
import RankOne.Proofs.Polynomial.Construction
import RankOne.Proofs.Polynomial.CosetDivision
import RankOne.Proofs.Polynomial.Domain
import RankOne.Proofs.Polynomial.Inversion
import RankOne.Proofs.Polynomial.Lagrange
import RankOne.Proofs.Polynomial.PowerTable
import RankOne.Proofs.Polynomial.Quotient
import RankOne.Proofs.Polynomial.Transform
import RankOne.Proofs.Schedule.AncestorSearch
import RankOne.Proofs.Schedule.Circles
import RankOne.Proofs.Schedule.Coherence
import RankOne.Proofs.Schedule.Cost
import RankOne.Proofs.Schedule.Endings
import RankOne.Proofs.Schedule.ImpliedParents
import RankOne.Proofs.Schedule.LeastPath
import RankOne.Proofs.Schedule.LevelOrder
import RankOne.Proofs.Schedule.Levels
import RankOne.Proofs.Schedule.LongestPath
import RankOne.Proofs.Schedule.Packing
import RankOne.Proofs.Schedule.Rearrangement
import RankOne.Proofs.Schedule.Reduction
import RankOne.Proofs.Schedule.Resolution
import RankOne.Proofs.Schedule.Sweep
import RankOne.Proofs.Schedule.Weights
import RankOne.Proofs.Witness.BitSelection
import RankOne.Proofs.Witness.ConstraintRun
import RankOne.Proofs.Witness.Evaluation
import RankOne.Proofs.Witness.Failure
import RankOne.Proofs.Witness.Forced
import RankOne.Proofs.Witness.HintRun
import RankOne.Proofs.Witness.Interference
import RankOne.Proofs.Witness.Interleaving
import RankOne.Proofs.Witness.LocalSolving
import RankOne.Proofs.Witness.Plan
import RankOne.Proofs.Witness.Rearrangement
import RankOne.Proofs.Witness.Run
import RankOne.Proofs.Witness.SingleResolver
import RankOne.Proofs.Witness.Solvability
import RankOne.Proofs.Witness.Soundness
import RankOne.Proofs.Witness.Starvation
import RankOne.Proofs.Witness.Termination
import RankOne.Proofs.Witness.Uniqueness
import RankOne.Random.Element
import RankOne.Random.Source
import RankOne.Schedule.Basic
import RankOne.Schedule.Graph
import RankOne.Schedule.Resolution
import RankOne.Schedule.Task
import RankOne.Settings.Document
import RankOne.Toml.Document
import RankOne.Toml.Lexical
import RankOne.Toml.Node
import RankOne.Toml.Scanner
import RankOne.Witness.HintFunction
import RankOne.Witness.SolveError
import RankOne.Witness.Solver
