import Orly.Lib.ThreeWay
import Orly.Lib.Ieee754
import Orly.Lib.MachineInt
import Orly.Lib.KWayMerge
import Orly.Atom.Comparison
import Orly.Sabot.Type
import Orly.Sabot.OrderTypes
import Orly.Sabot.OrderStates
import Orly.Sabot.TypeOrder
import Orly.Sabot.TypeOrderLaws
import Orly.Sabot.StateOrder
import Orly.Sabot.StateOrderLaws
import Orly.Sabot.GetHash
import Orly.Sabot.MatchPrefix
import Orly.Lib.AppendStore
import Orly.Atom.Core
import Orly.Atom.NewState
import Orly.Atom.RoundTrip
import Orly.Atom.QuickCompare
import Orly.Atom.KeyCompare
import Orly.Atom.PrefixMatch
import Orly.Atom.OrderedArena
import Orly.Atom.Remap
import Orly.Atom.NoteOrder
import Orly.Atom.StateSabots
import Orly.Indy.PresentWalker
import Orly.Indy.MinHeap
import Orly.Indy.MinHeapLaws
import Orly.Indy.RepoWalker
import Orly.Indy.ContextWalker
import Orly.Indy.MemoryLayer
import Orly.Indy.PresentWalkFile
import Orly.Indy.HashIndex
import Orly.Indy.Update
import Orly.Indy.UpdateIndex
import Orly.Indy.UpdateWalker
import Orly.Indy.Key
import Orly.Indy.ContextStreamer
import Orly.Rt.StrReplace
import Orly.Rt.RangeGenerator
import Orly.Strm.VarInt
import Orly.Strm.InOut
import Orly.Lib.SentinelList
import Orly.InvCon.Collections
import Orly.InvCon.OrderedList
import Orly.InvCon.OrderedListLaws
import Orly.Atom.CoreVector
import Orly.Atom.CoreVectorLaws
import Orly.Indy.MergeDataFile
import Orly.Indy.MergeDataFileRun
import Orly.Indy.MergeDataFileLaws
import Orly.Indy.KeyIndex
import Orly.Indy.KeyIndexLaws
import Orly.Indy.KeyIndexValid
import Orly.Lib.Regions
import Orly.Indy.DataFile
import Orly.Indy.DataFileLaws
import Orly.Indy.MergeUpdateIndex
import Orly.InvCon.UnorderedList
import Orly.InvCon.UnorderedListLaws
import Orly.Sabot.CompareStates
import Orly.Sabot.CompareStatesLaws
import Orly.InvCon.UnorderedMultimap
import Orly.Lib.Runs
