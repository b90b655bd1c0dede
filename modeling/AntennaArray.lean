import AntennaArray.Aim
import AntennaArray.Angle
import AntennaArray.Arguments
import AntennaArray.Broadcast
import AntennaArray.Catalog
import AntennaArray.Codebook
import AntennaArray.CommandLine.Command
import AntennaArray.CommandLine.Options
import AntennaArray.CommandLine.Word
import AntennaArray.Decimal.Digits
import AntennaArray.Decimal.Reading
import AntennaArray.Decimal.Text
import AntennaArray.Disk
import AntennaArray.Element.Basic
import AntennaArray.Element.Construction
import AntennaArray.Element.Radiator
import AntennaArray.Fault
import AntennaArray.Gain
import AntennaArray.Json.Reader
import AntennaArray.Json.Relaxed
import AntennaArray.Json.Token
import AntennaArray.Json.Writer
import AntennaArray.Main
import AntennaArray.Nearest
import AntennaArray.Number
import AntennaArray.Number.Binary64
import AntennaArray.Number.Elementary
import AntennaArray.Number.FixedPoint
import AntennaArray.Number.Rounding
import AntennaArray.Panel.Basic
import AntennaArray.Panel.Construction
import AntennaArray.PhasedArray
import AntennaArray.Phasor
import AntennaArray.Placement
import AntennaArray.Proofs.Exact
import AntennaArray.Record
import AntennaArray.Requirement
import AntennaArray.Room
import AntennaArray.Rotation
import AntennaArray.Scalar
import AntennaArray.Simulation
import AntennaArray.Sweep
import AntennaArray.Table
import AntennaArray.Tensor
import AntennaArray.Text.Basic
import AntennaArray.Text.Blank
import AntennaArray.Text.DecimalDigit
import AntennaArray.Text.Printable
import AntennaArray.Text.Quoted
import AntennaArray.Text.Utf8
import AntennaArray.Transmitter
import AntennaArray.Value
import AntennaArray.View
import AntennaArray.Proofs.Rotation
import AntennaArray.Proofs.TurnedPanel
import AntennaArray.Proofs.Json.Lexeme
import AntennaArray.Proofs.Json.Decorated
import AntennaArray.Proofs.Json.ValueTally
import AntennaArray.Proofs.Json.TextTally
import AntennaArray.Proofs.Json.Untouched
import AntennaArray.Proofs.Outcome
import AntennaArray.Proofs.Parameters
import AntennaArray.Proofs.ElementMaking
import AntennaArray.Proofs.CatalogLoading
import AntennaArray.Proofs.Phasor
import AntennaArray.Proofs.ArrayGain
import AntennaArray.Proofs.Sweep
import AntennaArray.Proofs.AngleRanges
import AntennaArray.Proofs.Normalized
import AntennaArray.Proofs.History
import AntennaArray.Proofs.Accepted
import AntennaArray.Proofs.Binary64.Units
import AntennaArray.Proofs.Binary64.Rounding
import AntennaArray.Proofs.Binary64.Sums
import AntennaArray.Proofs.Binary64.Fields
import AntennaArray.Proofs.Binary64.Wrapping
import AntennaArray.Proofs.Binary64.Quotients
import AntennaArray.Proofs.Peak
import AntennaArray.Proofs.Decimal.Significant
import AntennaArray.Proofs.Decimal.Spelling
import AntennaArray.Proofs.Table
import AntennaArray.Proofs.GridOrder
import AntennaArray.Proofs.ReadBack
import AntennaArray.Proofs.PanelSettings
import AntennaArray.Proofs.DegreeRoutes
import AntennaArray.Proofs.KeyOrder
import AntennaArray.Proofs.Broadcast
import AntennaArray.Proofs.Vectorized
import AntennaArray.Proofs.Alignment
import AntennaArray.Proofs.BestEntry
import AntennaArray.Proofs.PointSearch
import AntennaArray.Proofs.NearestDirections
import AntennaArray.Proofs.RecordKeys
import AntennaArray.Proofs.LocalFrame
import AntennaArray.Proofs.PanelChanges
import AntennaArray.Proofs.Spacing
import AntennaArray.Proofs.CanonicalAngles
import AntennaArray.Proofs.ExactElements
import AntennaArray.Proofs.Lobe
import AntennaArray.Proofs.PanelLayout
import AntennaArray.Proofs.PanelAsPoints
import AntennaArray.Proofs.BestMatch
import AntennaArray.Proofs.CosineLobe
import AntennaArray.Proofs.Binary64.Products
import AntennaArray.Proofs.FixedPoint
import AntennaArray.Proofs.Binary64.Elementary
import AntennaArray.Proofs.CosineExponent
import AntennaArray.Proofs.Binary64.Infinities
import AntennaArray.Proofs.Binary64.Powers
import AntennaArray.Proofs.ElementCeiling
import AntennaArray.Proofs.CompositeOverflow
import AntennaArray.Proofs.Json.Listing
import AntennaArray.Proofs.EffectiveEntries
import AntennaArray.Proofs.RelativePositions
import AntennaArray.Proofs.SteeringMarker
