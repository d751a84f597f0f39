import Jffi.AggregateSize
import Jffi.CacheCulling
import Jffi.CheckedCopies
import Jffi.Cleanup
import Jffi.ClosureAddresses
import Jffi.ClosureDispatch
import Jffi.ClosureExceptions
import Jffi.CopyBack
import Jffi.CopyBuffers
import Jffi.CopyMemory
import Jffi.DescriptorIndex
import Jffi.ExistingLibrary
import Jffi.InvokerObjects
import Jffi.JniParameters
import Jffi.Libffi.JavaClosures
import Jffi.Libffi.PrepCif
import Jffi.LibraryErrors
import Jffi.LibraryNames
import Jffi.LongDouble
import Jffi.MagazineLifecycle
import Jffi.NativeConstructors
import Jffi.NativeMethods
import Jffi.ObjectCalls
import Jffi.ObjectParameterInvoker
import Jffi.PackedFlags
import Jffi.PinnedArrays
import Jffi.RecyclingCounters
import Jffi.SavedErrno
import Jffi.StubLoader
import Jffi.ThreadAttachment
import Jffi.ZeroTerminated
