import CssVendor.Main
import CssVendor.Proofs.AllOrNothing
import CssVendor.Proofs.CustomProperties
import CssVendor.Proofs.EarlyStop
import CssVendor.Proofs.GroupMeaning
import CssVendor.Proofs.IdentifierNames
import CssVendor.Proofs.ImportantValues
import CssVendor.Proofs.Multiplicity
import CssVendor.Proofs.NameReading
import CssVendor.Proofs.NameSet
import CssVendor.Proofs.Partition
import CssVendor.Proofs.Payloads
import CssVendor.Proofs.Preludes
import CssVendor.Proofs.PrintedLines
import CssVendor.Proofs.RepeatedRun
import CssVendor.Proofs.RoundTrip
import CssVendor.Proofs.ScriptedWalk
import CssVendor.Proofs.SecondRun
import CssVendor.Proofs.SingleDeclaration
import CssVendor.Proofs.Transcript
