import GoodeMap.Batch
import GoodeMap.Check
import GoodeMap.Logging.Tree
import GoodeMap.Proofs.AuxiliaryAngle
import GoodeMap.Proofs.Parallel
import GoodeMap.Proofs.Calibration
import GoodeMap.Proofs.MapRow
import GoodeMap.Proofs.Piece
import GoodeMap.Proofs.UsualMap
import GoodeMap.Proofs.RoundTrip
import GoodeMap.Proofs.Acceptance
import GoodeMap.Proofs.Turn
import GoodeMap.Proofs.WorldRoundTrip
import GoodeMap.Proofs.RowSlope
import GoodeMap.Proofs.Seamless
import GoodeMap.Proofs.DistortionEllipse
import GoodeMap.Proofs.Sector
import GoodeMap.Proofs.Velocity
import GoodeMap.Proofs.Neighbours
import GoodeMap.Proofs.EqualArea
import GoodeMap.Proofs.DoubleRounding
import GoodeMap.Proofs.Doubles
import GoodeMap.Proofs.DoubleArithmetic
import GoodeMap.Proofs.DoubleLongitude
import GoodeMap.Proofs.DoubleCircular
import GoodeMap.Proofs.Coverage
import GoodeMap.Proofs.PlainAnswers
import GoodeMap.Proofs.HomolosineAnswers
import GoodeMap.Proofs.Guards
import GoodeMap.Proofs.Newton
import GoodeMap.Proofs.Choice
import GoodeMap.Proofs.Settling
import GoodeMap.Proofs.Estimates
import GoodeMap.Proofs.ParallelScale
import GoodeMap.Proofs.LobeStrips
import GoodeMap.Proofs.TraceRun
import GoodeMap.Proofs.DoubleValue
import GoodeMap.Proofs.NearestDouble
import GoodeMap.Proofs.SamplePoints
import GoodeMap.Proofs.LobeCoverage
import GoodeMap.Proofs.PlainRoundTrip
import GoodeMap.Proofs.InnerInverse
import GoodeMap.Proofs.Refusals
import GoodeMap.Proofs.PointAnswers
import GoodeMap.Proofs.DoubleSign
import GoodeMap.Proofs.Mirror
import GoodeMap.Proofs.Traversal
import GoodeMap.Proofs.NamedParameters
import GoodeMap.Proofs.WrappedLongitude
import GoodeMap.Proofs.TableMapping
import GoodeMap.Proofs.GridIndex
import GoodeMap.Proofs.Stretching
import GoodeMap.Proofs.BatchAnswers
import GoodeMap.Proofs.BudgetGrowth
import GoodeMap.Proofs.StrictChecks
import GoodeMap.Proofs.Placement
import GoodeMap.Proofs.EventCounts
import GoodeMap.Proofs.CheckVerdicts
import GoodeMap.Proofs.LoggerCalls
import GoodeMap.Proofs.LoggerRuns
