import MaxMindDB.Lib.Octets
import MaxMindDB.Lib.BitString
import MaxMindDB.Lib.Generator
import MaxMindDB.Lib.BitTrie
import MaxMindDB.Lib.Raising
import MaxMindDB.Lib.Worklist
import MaxMindDB.Lib.Recursion
import MaxMindDB.Lib.RwLock
import MaxMindDB.Lib.Balance
import MaxMindDB.Lib.OwnedList
import MaxMindDB.Lib.Resumption
import MaxMindDB.Value
import MaxMindDB.Buffer
import MaxMindDB.Decoder
import MaxMindDB.Format
import MaxMindDB.Reading
import MaxMindDB.CallGraph
import MaxMindDB.Nesting
import MaxMindDB.Truncation
import MaxMindDB.Typing
import MaxMindDB.Acceptance
import MaxMindDB.Encoding
import MaxMindDB.Reader
import MaxMindDB.Packing
import MaxMindDB.Lookup
import MaxMindDB.Walking
import MaxMindDB.Database
import MaxMindDB.FileMode
import MaxMindDB.SharedFile
import MaxMindDB.Corruption
import MaxMindDB.Release
import MaxMindDB.Answers
import MaxMindDB.Extension.GetRecord
import MaxMindDB.Extension.Iterator
import MaxMindDB.Extension.EntryData
import MaxMindDB.Extension.Integers
import MaxMindDB.Extension.Conversion
import MaxMindDB.Extension.EntrySafety
import MaxMindDB.Extension.References
import MaxMindDB.Extension.Traversal
import MaxMindDB.Extension.SameAnswer
import MaxMindDB.Extension.MetadataObject
import MaxMindDB.Extension.SameLeaves
import MaxMindDB.Iteration
import MaxMindDB.Completeness
import MaxMindDB.NodeReads
import MaxMindDB.Extension.Networks
import MaxMindDB.Extension.SameItems
import MaxMindDB.Extension.Descent
import MaxMindDB.Descent
import MaxMindDB.Extension.Operations
import MaxMindDB.Extension.Lifecycle
import MaxMindDB.Extension.Balance
import MaxMindDB.Extension.Opening
import MaxMindDB.OpenDatabase
import MaxMindDB.Handle
import MaxMindDB.Session
import MaxMindDB.Extension.Ledger
import MaxMindDB.Extension.Custody
import MaxMindDB.Extension.OwnedOnce
import MaxMindDB.Lib.Linearizable
import MaxMindDB.Lib.Progress
import MaxMindDB.Extension.AtomicReader
import MaxMindDB.Extension.Turning
import MaxMindDB.Extension.Moments
import MaxMindDB.Extension.Tracking
import MaxMindDB.Extension.Returning
import MaxMindDB.Extension.Linearization
import MaxMindDB.Lib.RefCount
import MaxMindDB.Extension.Accounts
import MaxMindDB.Extension.Objects
import MaxMindDB.Extension.Counting
import MaxMindDB.Extension.Deallocation
import MaxMindDB.Extension.Lifetimes
