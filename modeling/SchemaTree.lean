import SchemaTree.Session.Call
import SchemaTree.Yaml.Node
import SchemaTree.Proofs.Sequencing
import SchemaTree.Proofs.DocumentOrder
import SchemaTree.Proofs.Conformance
import SchemaTree.Proofs.EarliestFailure
import SchemaTree.Proofs.CopyFaults
import SchemaTree.Proofs.BrokenRules
import SchemaTree.Proofs.CompiledAgreement
import SchemaTree.Proofs.CloneFrame
import SchemaTree.Proofs.WrittenSchema
import SchemaTree.Proofs.DocumentFaults
import SchemaTree.Proofs.FieldGrowth
import SchemaTree.Proofs.RegistryHistory
import SchemaTree.Proofs.Ownership
import SchemaTree.Proofs.MovedChecks
import SchemaTree.Proofs.OrderIndependence
import SchemaTree.Proofs.DefinitionByNode
import SchemaTree.Proofs.FailedCalls
import SchemaTree.Proofs.KeyReading
import SchemaTree.Proofs.CompiledCalls
import SchemaTree.Proofs.BoundedVisits
import SchemaTree.Proofs.PrunedValues
import SchemaTree.Proofs.ExcessGate
import SchemaTree.Proofs.MessageHistory
import SchemaTree.Proofs.RelaxedSchemas
import SchemaTree.Proofs.SoftStops
import SchemaTree.Proofs.OptionViews
import SchemaTree.Proofs.FirstSignal
