import TypeInference.Main
import TypeInference.Output.Listing
import TypeInference.Proofs.AcceptedReads
import TypeInference.Proofs.ClassTables
import TypeInference.Proofs.ConstantNames
import TypeInference.Proofs.FoundDefinitions
import TypeInference.Proofs.HintArities
import TypeInference.Proofs.HintedAssignments
import TypeInference.Proofs.InstantiatedVars
import TypeInference.Proofs.Linearization
import TypeInference.Proofs.NameLookup
import TypeInference.Proofs.NarrowedReads
import TypeInference.Proofs.OperandTypes
import TypeInference.Proofs.Overriding
import TypeInference.Proofs.ParameterFlags
import TypeInference.Proofs.QuotedNames
import TypeInference.Proofs.TupleAssignment
import TypeInference.Proofs.TypeArguments
import TypeInference.Proofs.DeclaredTypeVars
import TypeInference.Proofs.TypeVarNames
