import JarRemap.JavaType
import JarRemap.Main
import JarRemap.Proofs.Adapt.Meaning
import JarRemap.Proofs.Adapt.Return
import JarRemap.Proofs.Artifact.Classes
import JarRemap.Proofs.Artifact.Declared
import JarRemap.Proofs.Builder.Run
import JarRemap.Proofs.Builder.Annotations
import JarRemap.Proofs.Builder.Bounds
import JarRemap.Proofs.Builder.Destinations
import JarRemap.Proofs.Builder.EntryOrder
import JarRemap.Proofs.Builder.MergedTwice
import JarRemap.Proofs.ClassFile.Bits
import JarRemap.Proofs.ClassFile.Canonical
import JarRemap.Proofs.ClassFile.Requests
import JarRemap.Proofs.ClassFile.Surrogates
import JarRemap.Proofs.Dictionary.Chain
import JarRemap.Proofs.Dictionary.Scan
import JarRemap.Proofs.Format.Bytewise.Parse
import JarRemap.Proofs.Format.Enigma.RoundTrip
import JarRemap.Proofs.Format.Mcp.Names
import JarRemap.Proofs.Format.Proguard.RoundTrip
import JarRemap.Proofs.Format.Searge.Agreement
import JarRemap.Proofs.Format.Tiny.Agreement
import JarRemap.Proofs.Format.TinyTree.RoundTrip
import JarRemap.Proofs.Format.Tsrg.Headed
import JarRemap.Proofs.Format.Tsrg.RoundTrip
import JarRemap.Proofs.Manifest.RoundTrip
import JarRemap.Proofs.Manifest.Wrapping
import JarRemap.Proofs.Merge.Columns
import JarRemap.Proofs.Packager.Output
import JarRemap.Proofs.Refmap.Reference
import JarRemap.Proofs.Refmap.Tables
import JarRemap.Proofs.Renaming.Conflicts
import JarRemap.Proofs.Renaming.Identity
import JarRemap.Proofs.Renaming.InPlace
import JarRemap.Proofs.Renaming.Inherited
import JarRemap.Proofs.Renaming.NestedClasses
import JarRemap.Proofs.Renaming.Written
import JarRemap.Proofs.Resource.AccessWidener
import JarRemap.Proofs.Resource.Symbols
import JarRemap.Proofs.Route.Connected
import JarRemap.Proofs.Signature.Erasure
import JarRemap.Proofs.Signature.Print
import JarRemap.Proofs.Task.Threading
