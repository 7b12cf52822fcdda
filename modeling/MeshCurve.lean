import MeshCurve.Main
import MeshCurve.Proofs.Adapt.Contract
import MeshCurve.Proofs.Adapt.Families
import MeshCurve.Proofs.Adapt.Stack
import MeshCurve.Proofs.Digit.Interleave
import MeshCurve.Proofs.Digit.Morton
import MeshCurve.Proofs.Digit.Path
import MeshCurve.Proofs.Grid.Extruded
import MeshCurve.Proofs.Grid.RedRefinement
import MeshCurve.Proofs.Leaves.Search
import MeshCurve.Proofs.Leaves.Sorting
import MeshCurve.Proofs.Leaves.Totality
import MeshCurve.Proofs.Metrics.Recording
import MeshCurve.Proofs.Run.ClosedForms
import MeshCurve.Proofs.Scheme.Table
import MeshCurve.Proofs.Walk.Lineage
import MeshCurve.Proofs.Walk.Outskirts
import MeshCurve.Proofs.Walk.Product
